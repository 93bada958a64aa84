import Catalog.Proofs.Queryables.Crowd

/-!
# Readers share a refresh

Only who has the lock asks the schema, and asks on behalf of a read only after seeing, with the
lock, that the fields are stale. So however the accesses overlap, one call to the schema is in
flight at most, and once an answer is in place nobody who was waiting for it asks again. The fields
that a read finds are those of one answer.
-/

namespace Catalog

variable {timeToLive : Nat} {g g' : Crowd}

/-- A caller is where it may be, given what there is in the cache and in the log. -/
structure Caller.Sound (c : Cache) (now : Int) (log : List Deed) (x : Caller) : Prop where
  serves : ∀ purpose ∈ x.phase.purpose?, purpose = x.purpose
  knows : x.phase.Knows log
  asks : x.phase = .ask .read → c.isStale now = true

theorem Caller.Sound.append {c c' : Cache} {now now' : Int} {log : List Deed} {x : Caller}
    (h : x.Sound c now log) (deeds : List Deed)
    (hstale : x.phase = .ask .read → c.isStale now = true → c'.isStale now' = true) :
    x.Sound c' now' (log ++ deeds) where
  serves := h.serves
  knows := h.knows.append deeds
  asks hask := hstale hask (h.asks hask)

namespace Crowd

/-- What is true of a crowd at any time. -/
structure Sound (timeToLive : Nat) (g : Crowd) : Prop where
  timeToLive_eq : g.cache.timeToLive = timeToLive
  /-- One caller has the lock, or nobody has it. -/
  holders_eq : g.waiting.countP (·.phase.holds) = g.cache.locked.toNat
  waiting : ∀ x ∈ g.waiting, x.Sound g.cache g.now g.log
  known : Known g.log g.cache.snapshot.fields
  ended : ∀ e ∈ g.ended, Known g.log e.2

theorem sound_new (enabled : Bool) (timeToLive : Nat) (now : Int) :
    (new enabled timeToLive now).Sound timeToLive where
  timeToLive_eq := rfl
  holders_eq := rfl
  waiting := nofun
  known := .inl rfl
  ended := nofun

/-- It is enough to know where the caller is whose place was taken down last. -/
theorem sound_put {purpose : Purpose} {p : Phase} (htimeToLive : g.cache.timeToLive = timeToLive)
    (hholders : g.waiting.countP (·.phase.holds) + p.holds.toNat = g.cache.locked.toNat)
    (hwaiting : ∀ x ∈ g.waiting, x.Sound g.cache g.now g.log)
    (hlast : Caller.Sound g.cache g.now g.log ⟨purpose, p⟩)
    (hknown : Known g.log g.cache.snapshot.fields) (hended : ∀ e ∈ g.ended, Known g.log e.2) :
    (g.put purpose p).Sound timeToLive where
  timeToLive_eq := by rw [cache_put, htimeToLive]
  holders_eq := by rw [countP_holds_put, cache_put, hholders]
  waiting x hx := by
    rw [cache_put, now_put, log_put]
    rcases mem_waiting_put hx with hx | rfl
    · exact hwaiting x hx
    · exact hlast
  known := by rw [cache_put, log_put]; exact hknown
  ended e he := by
    rw [log_put]
    rcases mem_ended_put he with he | rfl
    · exact hended e he
    · exact hlast.knows

namespace Sound

variable {x : Caller} {before after : List Caller} {c : Cache} {p : Phase} {deeds : List Deed}

/-- There is not more than one caller who has the lock. -/
theorem holders_le_one (h : g.Sound timeToLive) : g.waiting.countP (·.phase.holds) ≤ 1 :=
  h.holders_eq ▸ Bool.toNat_le g.cache.locked

theorem countP_of_waiting (hwaiting : g.waiting = before ++ x :: after) :
    g.waiting.countP (·.phase.holds) =
      (before ++ after).countP (·.phase.holds) + x.phase.holds.toNat := by
  rw [hwaiting, List.countP_append, List.countP_cons, List.countP_append]
  cases x.phase.holds with
  | _ => simp [Nat.add_assoc]

/-- Who has the lock is the only one. -/
theorem not_holds (h : g.Sound timeToLive) (hwaiting : g.waiting = before ++ x :: after)
    (hx : x.phase.holds = true) : ∀ y ∈ before ++ after, y.phase.holds = false := by
  have hle := h.holders_le_one
  rw [countP_of_waiting hwaiting, hx, Bool.toNat_true] at hle
  have hnone : (before ++ after).countP (·.phase.holds) = 0 := by omega
  exact fun y hy => Bool.eq_false_iff.2 (List.countP_eq_zero.1 hnone y hy)

/-- Who has the lock can rely on it. -/
theorem locked_of_holds (h : g.Sound timeToLive) (hwaiting : g.waiting = before ++ x :: after)
    (hx : x.phase.holds = true) : g.cache.locked = true := by
  have hcount := h.holders_eq
  rw [countP_of_waiting hwaiting, hx, Bool.toNat_true] at hcount
  cases hlocked : g.cache.locked with
  | true => rfl
  | false => simp [hlocked] at hcount

theorem sound_of_waiting (h : g.Sound timeToLive) (hwaiting : g.waiting = before ++ x :: after) :
    x.Sound g.cache g.now g.log ∧ ∀ y ∈ before ++ after, y.Sound g.cache g.now g.log := by
  have hall := h.waiting
  rw [hwaiting] at hall
  refine ⟨hall x (List.mem_append_right _ (List.mem_cons_self ..)), fun y hy => hall y ?_⟩
  exact List.mem_append.2 ((List.mem_append.1 hy).imp_right (List.mem_cons_of_mem x))

/-- Somebody comes. -/
theorem come (h : g.Sound timeToLive) (purpose : Purpose) :
    (g.put purpose (if g.cache.enabled then purpose.firstPhase else .done [])).Sound
      timeToLive := by
  split
  · refine sound_put h.timeToLive_eq ?_ h.waiting ?_ h.known h.ended
    · rw [← h.holders_eq]
      cases purpose with
      | _ => rfl
    · cases purpose with
      | _ => exact ⟨fun _ hmem => (Option.some.inj hmem).symm, trivial, nofun⟩
  · exact sound_put h.timeToLive_eq h.holders_eq h.waiting ⟨nofun, .inl rfl, nofun⟩ h.known h.ended

/-- A caller goes on. Nobody else is about to ask when it changes the snapshot. -/
theorem advance (h : g.Sound timeToLive) (hwaiting : g.waiting = before ++ x :: after)
    (hstepped : Phase.Stepped g.now g.cache x.phase deeds c p) :
    ({ g with cache := c, waiting := before ++ after, log := g.log ++ deeds }.put
      x.purpose p).Sound timeToLive := by
  obtain ⟨hx, hothers⟩ := h.sound_of_waiting hwaiting
  have hleaves := x.phase.leaves_eq_or g.now g.cache.snapshot
  rw [← hstepped.snapshot_eq] at hleaves
  have hknows := hstepped.knows g.log h.known hx.knows
  apply sound_put
  · exact hstepped.timeToLive_eq.trans h.timeToLive_eq
  · have hlock := hstepped.lock_eq (h.locked_of_holds hwaiting)
    have hcount := h.holders_eq
    rw [countP_of_waiting hwaiting] at hcount
    dsimp only
    omega
  · intro y hy
    refine (hothers y hy).append deeds fun hask hstale => ?_
    rcases hleaves with hsame | ⟨purpose, answer, hpublish, -⟩
    · exact Cache.isStale_of_le (Int.le_refl _) hstepped.timeToLive_eq hsame hstale
    · -- Who is about to ask has the lock, and so has who puts an answer in place.
      have hfree := h.not_holds hwaiting (by rw [hpublish]; rfl) y hy
      rw [hask] at hfree
      cases hfree
  · exact ⟨fun q hmem => hx.serves q (hstepped.purpose_eq q hmem), hknows, hstepped.asks⟩
  · rcases hleaves with hsame | ⟨purpose, answer, hpublish, hsnapshot⟩
    · dsimp only
      rw [hsame]
      exact h.known.append deeds
    · have hheard := hx.knows
      rw [hpublish] at hheard
      dsimp only
      rw [hsnapshot]
      exact Known.append (.inr ⟨answer, hheard, rfl⟩) deeds
  · exact fun e he => (h.ended e he).append deeds

/-- A caller gives up, and with it the lock if it has it. -/
theorem leave (h : g.Sound timeToLive) (hwaiting : g.waiting = before ++ x :: after) :
    Sound timeToLive { g with
      cache.locked := g.cache.locked && !x.phase.holds
      waiting := before ++ after } where
  timeToLive_eq := h.timeToLive_eq
  holders_eq := by
    have hcount := h.holders_eq
    rw [countP_of_waiting hwaiting] at hcount
    cases hx : x.phase.holds with
    | false => simpa [hx] using hcount
    | true =>
      have hlocked := h.locked_of_holds hwaiting hx
      simpa [hx, hlocked] using hcount
  waiting y hy := by
    have hy := (h.sound_of_waiting hwaiting).2 y hy
    exact ⟨hy.serves, hy.knows, hy.asks⟩
  known := h.known
  ended := h.ended

/-- The cache changes otherwise than by a step of a caller, or time passes. -/
theorem change (h : g.Sound timeToLive) {now : Int} (deeds : List Deed)
    (htimeToLive : c.timeToLive = g.cache.timeToLive) (hlocked : c.locked = g.cache.locked)
    (hfields : c.snapshot.fields = g.cache.snapshot.fields ∨ c.snapshot.fields = [])
    (hstale : g.cache.isStale g.now = true → c.isStale now = true) :
    Sound timeToLive { g with cache := c, now := now, log := g.log ++ deeds } where
  timeToLive_eq := htimeToLive.trans h.timeToLive_eq
  holders_eq := by rw [hlocked]; exact h.holders_eq
  waiting x hx := (h.waiting x hx).append deeds fun _ => hstale
  known := by
    rcases hfields with hsame | hnone
    · dsimp only
      rw [hsame]
      exact h.known.append deeds
    · exact .inl hnone
  ended e he := (h.ended e he).append deeds

theorem moves (h : g.Sound timeToLive) (hmoves : g.Moves g') : g'.Sound timeToLive := by
  cases hmoves with
  | come purpose => exact h.come purpose
  | step before after hwaiting hstep =>
    exact h.advance hwaiting (Phase.stepped_of_step? hstep _)
  | answer before after hwaiting hawaits schema =>
    refine h.advance hwaiting ?_
    rw [hawaits]
    exact Phase.stepped_answer ..
  | leave before after hwaiting => exact h.leave hwaiting
  | mark =>
    have hstale := g.cache.isStale_invalidate g.now
    obtain ⟨loadedAt, heq, -⟩ := g.cache.invalidate_eq g.now
    rw [heq] at hstale ⊢
    exact h.change _ rfl rfl (.inl rfl) fun _ => hstale
  | forget => exact h.change _ rfl rfl (.inr rfl) fun _ => rfl
  | pass seconds =>
    have hlog : g.log = g.log ++ [] := (List.append_nil _).symm
    rw [hlog]
    exact h.change [] rfl rfl (.inl rfl) (Cache.isStale_of_le (by omega) rfl rfl)

theorem runs (h : g.Sound timeToLive) (hruns : g.Runs g') : g'.Sound timeToLive := by
  induction hruns with
  | refl => exact h
  | tail _ hmoves ih => exact ih.moves hmoves

end Sound

/-- What a move adds to the log, and what that says. -/
structure Adds (g : Crowd) (deeds : List Deed) (g' : Crowd) : Prop where
  log_eq : g'.log = g.log ++ deeds
  asked : ∀ purpose, .asked purpose ∈ deeds → ∃ before x after other,
    g.waiting = before ++ x :: after ∧ x.purpose = purpose ∧ x.phase = .ask other
  published : ∀ answer, .published answer ∈ deeds →
    g'.cache.snapshot = ⟨answer.map Prod.fst, some g.now⟩
  loaded : .marked ∉ deeds → .forgotten ∉ deeds → g.cache.snapshot.loadedAt.isSome = true →
    g'.cache.snapshot.loadedAt.isSome = true

/-- A move that neither asks nor puts an answer in place, and changes the snapshot only when it says
so. -/
theorem adds_of_same (deeds : List Deed) (hlog : g'.log = g.log ++ deeds)
    (hasked : ∀ purpose, .asked purpose ∉ deeds) (hpublished : ∀ answer, .published answer ∉ deeds)
    (hsnapshot : .marked ∉ deeds → .forgotten ∉ deeds → g'.cache.snapshot = g.cache.snapshot) :
    g.Adds deeds g' where
  log_eq := hlog
  asked purpose h := absurd h (hasked purpose)
  published answer h := absurd h (hpublished answer)
  loaded hmarked hforgotten hloaded := by rw [hsnapshot hmarked hforgotten]; exact hloaded

theorem Moves.adds (hmoves : g.Moves g') : ∃ deeds, g.Adds deeds g' := by
  cases hmoves with
  | come purpose =>
    exact ⟨[], adds_of_same [] (by simp) nofun nofun fun _ _ => by rw [cache_put]⟩
  | @step x c events p before after hwaiting hstep =>
    have hsnapshot := (Phase.stepped_of_step? hstep []).snapshot_eq
    refine ⟨x.deeds, by simp, fun purpose hmem => ?_, fun answer hmem => ?_, fun _ _ hloaded => ?_⟩
    · obtain ⟨hpurpose, other, hask⟩ := Caller.exists_ask_of_mem_deeds hmem
      exact ⟨before, x, after, other, hwaiting, hpurpose, hask⟩
    · obtain ⟨other, hpublish⟩ := Caller.exists_publish_of_mem_deeds hmem
      rw [cache_put, hsnapshot, hpublish]
      rfl
    · rw [cache_put, hsnapshot]
      rcases x.phase.leaves_eq_or g.now g.cache.snapshot with heq | ⟨-, answer, -, heq⟩
      · rw [heq]
        exact hloaded
      · rw [heq]
        rfl
  | @answer x purpose before after hwaiting hawaits schema =>
    have hsnapshot := (Phase.stepped_answer g.now g.cache purpose schema).snapshot_eq
    refine ⟨_, adds_of_same [.heard schema] (by simp) (by simp) (by simp) fun _ _ => ?_⟩
    rw [cache_put, hawaits]
    exact hsnapshot
  | leave before after hwaiting =>
    exact ⟨[], adds_of_same [] (by simp) nofun nofun fun _ _ => rfl⟩
  | mark =>
    exact ⟨_, adds_of_same [.marked] rfl (by simp) (by simp) fun h => absurd (by simp) h⟩
  | forget =>
    exact ⟨_, adds_of_same [.forgotten] rfl (by simp) (by simp) fun _ h => absurd (by simp) h⟩
  | pass seconds => exact ⟨[], adds_of_same [] (by simp) nofun nofun fun _ _ => rfl⟩

/-- The fields were loaded and have become as old as an answer may get. -/
def Expired (g : Crowd) : Prop :=
  ∃ instant ∈ g.cache.snapshot.loadedAt, (g.cache.timeToLive : Int) ≤ g.now - instant

theorem not_expired (h : g.cache.isStale g.now = false) : ¬g.Expired := by
  rintro ⟨instant, hinstant, hold⟩
  have hstale : g.cache.isStale g.now = true :=
    Cache.isStale_iff.2 fun other hother => Option.mem_unique hinstant hother ▸ hold
  rw [h] at hstale
  cases hstale

/-- Some number of moves, each of them made before the fields have expired. -/
abbrev RunsFresh : Crowd → Crowd → Prop :=
  Relation.ReflTransGen fun g g' => g.Moves g' ∧ ¬g.Expired

theorem runs_of_runsFresh (hruns : g.RunsFresh g') : g.Runs g' := by
  induction hruns with
  | refl => exact .refl
  | tail _ hmoves ih => exact ih.tail hmoves.1

namespace Sound

/-- Who asks has the lock, and on behalf of a read it does so only if the fields are stale. -/
theorem of_asked (h : g.Sound timeToLive) {deeds : List Deed} (hadds : g.Adds deeds g')
    {purpose : Purpose} (hasked : .asked purpose ∈ deeds) :
    g.waiting.countP (·.phase.isRefreshing) = 0 ∧
      (purpose = .read → g.cache.isStale g.now = true) := by
  obtain ⟨before, x, after, other, hwaiting, rfl, hask⟩ := hadds.asked purpose hasked
  have hx := (h.sound_of_waiting hwaiting).1
  have hothers := h.not_holds hwaiting (by rw [hask]; rfl)
  constructor
  · rw [hwaiting, List.countP_append, List.countP_cons]
    have hnone (l : List Caller) (hl : ∀ y ∈ l, y.phase.holds = false) :
        l.countP (·.phase.isRefreshing) = 0 :=
      List.countP_eq_zero.2 fun y hy hrefreshing => by
        have hholds := Phase.holds_of_isRefreshing hrefreshing
        rw [hl y hy] at hholds
        cases hholds
    rw [hnone before fun y hy => hothers y (List.mem_append_left _ hy),
      hnone after fun y hy => hothers y (List.mem_append_right _ hy), hask]
    rfl
  · intro hread
    have hother : other = x.purpose := hx.serves other (by rw [hask]; rfl)
    exact hx.asks (by rw [hask, hother, hread])

/-- As long as the fields stay loaded and do not expire, no read asks. -/
theorem not_asked (h : g.Sound timeToLive) (hloaded : g.cache.snapshot.loadedAt.isSome = true)
    (hruns : g.RunsFresh g') : ∃ deeds, g'.log = g.log ++ deeds ∧
      (.marked ∉ deeds → .forgotten ∉ deeds →
        g'.cache.snapshot.loadedAt.isSome = true ∧ .asked .read ∉ deeds) := by
  -- That the fields are loaded is what one move hands on to the next.
  induction hruns with
  | refl => exact ⟨[], by simp, fun _ _ => ⟨hloaded, nofun⟩⟩
  | @tail g₁ g₂ hruns hmoves ih =>
    obtain ⟨deeds, hlog, hfresh⟩ := ih
    obtain ⟨more, hadds⟩ := hmoves.1.adds
    refine ⟨deeds ++ more, by rw [hadds.log_eq, hlog, List.append_assoc], ?_⟩
    simp only [List.mem_append, not_or]
    rintro ⟨hmarked, hmarked'⟩ ⟨hforgotten, hforgotten'⟩
    obtain ⟨hloaded₁, hasked⟩ := hfresh hmarked hforgotten
    refine ⟨hadds.loaded hmarked' hforgotten' hloaded₁, hasked, fun hasked' => ?_⟩
    have hsound := h.runs (runs_of_runsFresh hruns)
    have hstale := (hsound.of_asked hadds hasked').2 rfl
    obtain ⟨instant, hinstant⟩ := Option.isSome_iff_exists.1 hloaded₁
    exact hmoves.2 ⟨instant, hinstant, Cache.isStale_iff.1 hstale instant hinstant⟩

end Sound

/-- Whoever comes, and whatever they do: not more than one call to the schema is in flight. A call
is started when nobody has a call in flight or an answer to put in place, and on behalf of a read
only if there is nothing in the snapshot or it is as old as an answer may get. What a read finds is
nothing, or the fields of one answer that had arrived. And behind an answer that was put in place no
read asks, unless the fields were marked as stale or forgotten, or have expired. -/
theorem refreshes_shared (enabled : Bool) (timeToLive : Nat) (now : Int) {g : Crowd}
    (hruns : (new enabled timeToLive now).Runs g) :
    g.waiting.countP (·.phase.isAwaiting) ≤ 1 ∧
    (∀ purpose g', g.Moves g' → g'.log = g.log ++ [.asked purpose] →
      g.waiting.countP (·.phase.isRefreshing) = 0 ∧
      (purpose = .read → g.cache.snapshot.loadedAt = none ∨
        ∃ instant ∈ g.cache.snapshot.loadedAt, (timeToLive : Int) ≤ g.now - instant)) ∧
    (∀ fields, (.read, fields) ∈ g.ended → fields = [] ∨
      ∃ answer : Schema, .heard (some answer) ∈ g.log ∧ fields = answer.map Prod.fst) ∧
    (∀ answer g₁ g₂ deeds, g.Moves g₁ → g₁.log = g.log ++ [.published answer] →
      g₁.RunsFresh g₂ → g₂.log = g₁.log ++ deeds → .marked ∉ deeds → .forgotten ∉ deeds →
      .asked .read ∉ deeds) := by
  have hsound := (sound_new enabled timeToLive now).runs hruns
  refine ⟨?_, ?_, fun fields hended => hsound.ended _ hended, ?_⟩
  · refine Nat.le_trans (List.countP_mono_left fun x _ hawaiting => ?_) hsound.holders_le_one
    exact Phase.holds_of_isRefreshing (Phase.isRefreshing_of_isAwaiting hawaiting)
  · intro purpose g' hmoves hlog
    obtain ⟨deeds, hadds⟩ := hmoves.adds
    obtain rfl := List.append_cancel_left (hadds.log_eq.symm.trans hlog)
    obtain ⟨hnone, hstale⟩ := hsound.of_asked hadds (List.mem_singleton_self _)
    refine ⟨hnone, fun hread => ?_⟩
    have hold := Cache.isStale_iff.1 (hstale hread)
    rw [hsound.timeToLive_eq] at hold
    cases hloaded : g.cache.snapshot.loadedAt with
    | none => exact .inl rfl
    | some instant => exact .inr ⟨instant, rfl, hold instant hloaded⟩
  · intro answer g₁ g₂ deeds hmoves hlog hfresh hlog₂ hmarked hforgotten
    obtain ⟨added, hadds⟩ := hmoves.adds
    obtain rfl := List.append_cancel_left (hadds.log_eq.symm.trans hlog)
    have hsnapshot := hadds.published answer (List.mem_singleton_self _)
    obtain ⟨deeds', hlog', hasked⟩ :=
      (hsound.moves hmoves).not_asked (by rw [hsnapshot]; rfl) hfresh
    obtain rfl := List.append_cancel_left (hlog'.symm.trans hlog₂)
    exact (hasked hmarked hforgotten).2

/-- Two readers have found nothing. One of them is about to ask, the other one waits for the
lock. -/
def twoReaders : Crowd where
  cache := { Cache.new true 60 with locked := true }
  now := 0
  waiting := [⟨.read, .queue .read⟩, ⟨.read, .ask .read⟩]
  ended := []
  log := []

/-- The schema has answered to the first reader. -/
def twoReadersAnswered : Crowd where
  cache := { Cache.new true 60 with mapping := ⟨[("a", "properties.a")]⟩, locked := true }
  now := 0
  waiting := [⟨.read, .queue .read⟩, ⟨.read, .publish .read [("a", "properties.a")]⟩]
  ended := []
  log := [.asked .read, .heard (some [("a", "properties.a")])]

/-- Half a minute later both readers have the fields, and somebody is warming the cache. -/
def twoReadersServed : Crowd where
  cache := { Cache.new true 60 with
    snapshot := ⟨["a"], some 0⟩
    mapping := ⟨[("a", "properties.a")]⟩
    locked := true
    refreshes := 1 }
  now := 30
  waiting := [⟨.warm, .await .warm⟩]
  ended := [(.read, ["a"]), (.read, ["a"])]
  log := [.asked .read, .heard (some [("a", "properties.a")]), .published [("a", "properties.a")],
    .asked .warm]

theorem runs_twoReaders : (new true 60 0).Runs twoReaders :=
  .head (.come _ .read) <| .head (.come _ .read) <|
  .head (.step [] [⟨.read, .look⟩] rfl rfl) <|
  .head (.step [] [⟨.read, .queue .read⟩] rfl rfl) <|
  .head (.step [] [⟨.read, .queue .read⟩] rfl rfl) <|
  .single (.step (x := ⟨.read, .recheckCold⟩) (p := .ask .read) [⟨.read, .queue .read⟩] [] rfl rfl)

theorem runs_twoReadersAnswered : twoReaders.Runs twoReadersAnswered :=
  .head (.step [⟨.read, .queue .read⟩] [] rfl rfl) <|
  .head (.answer [⟨.read, .queue .read⟩] [] rfl rfl (some [("a", "properties.a")])) <|
  .single (.step (x := ⟨.read, .learn .read [("a", "properties.a")]⟩)
    (p := .publish .read [("a", "properties.a")]) [⟨.read, .queue .read⟩] [] rfl rfl)

theorem exists_runs_twoReadersServed : ∃ g : Crowd, twoReadersAnswered.Moves g ∧
    g.log = twoReadersAnswered.log ++ [.published [("a", "properties.a")]] ∧
    g.RunsFresh twoReadersServed ∧ twoReadersServed.log = g.log ++ [.asked .warm] :=
  ⟨_, .step (x := ⟨.read, .publish .read [("a", "properties.a")]⟩) [⟨.read, .queue .read⟩] []
      rfl rfl,
    rfl,
    .head ⟨.step [⟨.read, .queue .read⟩] [] rfl rfl, not_expired rfl⟩ <|
    .head ⟨.step [] [] rfl rfl, not_expired rfl⟩ <|
    .head ⟨.pass _ 30, not_expired rfl⟩ <|
    .head ⟨.step [] [] rfl rfl, not_expired rfl⟩ <|
    .head ⟨.step [] [] rfl rfl, not_expired rfl⟩ <|
    .head ⟨.come _ .warm, not_expired rfl⟩ <|
    .head ⟨.step [] [] rfl rfl, not_expired rfl⟩ <|
    .single ⟨.step (x := ⟨.warm, .ask .warm⟩) (p := .await .warm) [] [] rfl rfl, not_expired rfl⟩,
    rfl⟩

/-- The schema is asked once for two readers that overlap. -/
theorem refreshes_shared_two_readers :
    twoReadersServed.waiting.countP (·.phase.isAwaiting) ≤ 1 ∧
    (∃ g', twoReaders.Moves g' ∧ g'.log = twoReaders.log ++ [.asked .read] ∧
      twoReaders.waiting.countP (·.phase.isRefreshing) = 0 ∧
      (twoReaders.cache.snapshot.loadedAt = none ∨
        ∃ instant ∈ twoReaders.cache.snapshot.loadedAt, (60 : Int) ≤ twoReaders.now - instant)) ∧
    (∃ answer : Schema, .heard (some answer) ∈ twoReadersServed.log ∧
      ["a"] = answer.map Prod.fst) ∧
    ∃ g₁ deeds, twoReadersAnswered.Moves g₁ ∧
      g₁.log = twoReadersAnswered.log ++ [.published [("a", "properties.a")]] ∧
      g₁.RunsFresh twoReadersServed ∧ twoReadersServed.log = g₁.log ++ deeds ∧
      .asked .read ∉ deeds := by
  obtain ⟨g₁, hmoves, hlog, hfresh, hlog₂⟩ := exists_runs_twoReadersServed
  have hask : ∃ g', twoReaders.Moves g' ∧ g'.log = twoReaders.log ++ [.asked .read] :=
    ⟨_, .step [⟨.read, .queue .read⟩] [] rfl rfl, rfl⟩
  obtain ⟨g', hmoves', hlog'⟩ := hask
  have hanswered := runs_twoReaders.trans runs_twoReadersAnswered
  have hserved : (new true 60 0).Runs twoReadersServed :=
    (hanswered.tail hmoves).trans (runs_of_runsFresh hfresh)
  obtain ⟨hnone, hstale⟩ := (refreshes_shared true 60 0 runs_twoReaders).2.1 .read g' hmoves' hlog'
  have hfound := (refreshes_shared true 60 0 hserved).2.2.1 ["a"] (by decide)
  have hunasked := (refreshes_shared true 60 0 hanswered).2.2.2 _ g₁ twoReadersServed _ hmoves hlog
    hfresh hlog₂ (by decide) (by decide)
  exact ⟨(refreshes_shared true 60 0 hserved).1, ⟨g', hmoves', hlog', hnone, hstale rfl⟩,
    hfound.resolve_left (by decide), ⟨g₁, _, hmoves, hlog, hfresh, hlog₂, hunasked⟩⟩

end Crowd

end Catalog
