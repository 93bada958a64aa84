import Catalog.Proofs.Metrics.Counters
import Catalog.Proofs.Service.Traffic

/-!
# How often a compilation is counted

Each compilation is counted when it is answered, under its kind and its outcome, whatever other
calls do meanwhile. All are counted once, except for merge patches whose operations are refused:
these are counted as scripts and then once more as calls.
-/

namespace Catalog

/-- What a call compiles. -/
def Call.kind? : Call → Option CompileKind
  | .filter _ => some .filter
  | .filterTree _ => some .filter
  | .query _ => some .query
  | .sort _ => some .sort
  | .patch _ => some .patch
  | .merge _ => some .mergePatch
  | _ => none

/-- An answer to a compilation of a kind adds to the tally. -/
def Response.counts (kind : CompileKind) (k : Tally) : Response → Bool
  | .clause r => k.counts kind r
  | .order r => k.counts kind r
  | .script r => k.counts kind r
  | _ => false

namespace Exchange

/-- The call was a compilation, and its outcome adds to the tally. -/
def adds (k : Tally) (x : Exchange) : Bool :=
  x.call.kind?.any fun kind => x.response.counts kind k

/-- The operations of a merge patch were refused. A merge patch that is no object has none. -/
def isRecounted (x : Exchange) : Bool :=
  match x.response, x.call with
  | .script (.error _), .merge (.object _) => true
  | _, _ => false

/-- How much an answered call adds to a tally. -/
def weight (k : Tally) (x : Exchange) : Nat :=
  (x.adds k).toNat + (x.adds k && x.isRecounted).toNat

theorem weight_of_not_isRecounted {x : Exchange} (h : x.isRecounted = false) (k : Tally) :
    x.weight k = (x.adds k).toNat := by
  rw [weight, h, Bool.and_false, Bool.toNat_false, Nat.add_zero]

/-- How much several answered calls add to a tally. -/
def total (k : Tally) (xs : List Exchange) : Nat :=
  xs.countP (adds k) + xs.countP fun x => x.adds k && x.isRecounted

theorem total_append_singleton (k : Tally) (xs : List Exchange) (x : Exchange) :
    total k (xs ++ [x]) = total k xs + x.weight k := by
  have hcount (p : Exchange → Bool) : (xs ++ [x]).countP p = xs.countP p + (p x).toNat := by
    cases hp : p x <;> simp [hp]
  rw [total, total, weight, hcount, hcount]
  omega

theorem adds_of_isRecounted {k : Tally} {x : Exchange} (h : x.isRecounted = true)
    (hadds : x.adds k = true) :
    k = .ended .mergePatch false ∨ ∃ error, k = .refused .mergePatch error := by
  obtain ⟨call, response⟩ := x
  unfold isRecounted at h
  split at h
  · next e members hresponse hcall =>
    dsimp only at hresponse hcall
    subst hresponse hcall
    cases k with
    | ended kind success =>
      have hkind : kind = .mergePatch ∧ success = false := by
        simpa [adds, Call.kind?, Response.counts, Tally.counts] using hadds
      exact .inl (by rw [hkind.1, hkind.2])
    | refused kind error =>
      have hkind : kind = .mergePatch ∧ error = e.kind := by
        simpa [adds, Call.kind?, Response.counts, Tally.counts] using hadds
      exact .inr ⟨error, by rw [hkind.1]⟩
  · cases h

end Exchange

@[simp] theorem Tally.counts_map {α β : Type} (k : Tally) (kind : CompileKind)
    (r : Except CompileError α) (f : α → β) : k.counts kind (r.map f) = k.counts kind r := by
  cases r with
  | error e => cases k <;> rfl
  | ok a => cases k <;> rfl

namespace Phase

/-- Nothing that an access measures is the outcome of a compilation. -/
theorem isOutcome_of_step? {now : Int} {c c' : Cache} {p p' : Phase} {events : List Event}
    (h : p.step? now c = some (c', events, p')) : ∀ e ∈ events, e.isOutcome = false := by
  cases p with
  | look =>
    simp only [step?] at h
    split at h <;> cases h <;> simp
  | contend seen =>
    simp only [step?] at h
    split at h <;> cases h <;> simp
  | queue purpose =>
    simp only [step?] at h
    split at h <;> cases h
    simp
  | publish purpose answer =>
    cases h
    simp [Event.isOutcome]
  | await purpose => cases h
  | done fields => cases h
  | _ => cases h; simp

theorem isOutcome_of_answer (c : Cache) (schema : Option Schema) (p : Phase) :
    ∀ e ∈ (p.answer c schema).2.1, e.isOutcome = false := by
  cases p with
  | await purpose =>
    cases schema with
    | none => simp [answer, Event.isOutcome]
    | some entries => simp [answer]
  | _ => simp [answer]

end Phase

namespace Service

variable {s t : Service} {k : Tally} {call : Call} {goal : Goal}

/-- What has been counted for a tally. -/
def tally (s : Service) (k : Tally) : Nat := s.metrics.counter k.series

theorem tally_record (s : Service) {e : Event} (h : e.isOutcome = false) (k : Tally) :
    (s.record e).tally k = s.tally k :=
  Tally.counter_record_of_not_isOutcome h s.metrics k

@[simp] theorem tally_conclude {α : Type} (s : Service) (kind : CompileKind)
    (r : Except CompileError α) (k : Tally) :
    (s.conclude kind r).tally k = s.tally k + (k.counts kind r).toNat :=
  (tally_record _ rfl k).trans (counter_recordOutcome s kind r k)

@[simp] theorem tally_recordScript (s : Service) (kind : CompileKind)
    (r : Except CompileError Patch.Script) (k : Tally) :
    (s.recordScript kind r).tally k = s.tally k + (k.counts kind r).toNat := by
  cases r with
  | error e => exact counter_recordOutcome s kind (α := Patch.Script) (.error e) k
  | ok script =>
    refine (counter_recordOutcome _ kind (.ok script) k).trans (congrArg (· + _) ?_)
    exact tally_record s rfl k

@[simp] theorem tally_check (s : Service) (allowed : Option (List String)) (names : List String)
    (k : Tally) : (s.check allowed names).1.tally k = s.tally k := by
  unfold check
  cases Filter.gate allowed names with
  | error e => exact tally_record s rfl k
  | ok => rfl

theorem tally_step? {now : Int} {phase : Phase} {x : Service × Phase}
    (h : s.step? now phase = some x) (k : Tally) : x.1.tally k = s.tally k := by
  obtain ⟨cache, events, hstep, hservice⟩ := step?_eq_some h
  rw [hservice]
  exact Tally.counter_recordAll_of_not_isOutcome (Phase.isOutcome_of_step? hstep) _ k

theorem tally_hear (s : Service) (schema : Option Schema) (phase : Phase) (k : Tally) :
    (s.hear schema phase).1.tally k = s.tally k :=
  Tally.counter_recordAll_of_not_isOutcome (Phase.isOutcome_of_answer _ schema phase) _ k

theorem tally_abandon (s : Service) (job : Job) (k : Tally) :
    (s.abandon job).tally k = s.tally k := by
  unfold abandon
  cases job.goal.kind? with
  | none => rfl
  | some kind => exact tally_record s rfl k

/-- What has come of a call is counted: its outcome if it was answered, and nothing yet if it is on
its way. -/
def Counts (s : Service) (call : Call) : Service × Progress → Prop
  | (t, .answered r) => ∀ k : Tally, t.tally k = s.tally k + Exchange.weight k ⟨call, r⟩
  | (t, .running job) => (∀ k : Tally, t.tally k = s.tally k) ∧ job.goal.kind? = call.kind?

/-- A call that is no compilation adds nothing to any tally. -/
theorem counts_of_kind?_eq_none (hcall : call.kind? = none) {r : Response}
    (h : ∀ k : Tally, t.tally k = s.tally k) : s.Counts call (t, .answered r) := by
  intro k
  simp [h, Exchange.weight, Exchange.adds, hcall]

/-- An answer that is counted once. -/
theorem counts_of_kind?_eq_some {kind : CompileKind} (hcall : call.kind? = some kind)
    {r : Response} (hr : Exchange.isRecounted ⟨call, r⟩ = false)
    (h : ∀ k : Tally, t.tally k = s.tally k + (r.counts kind k).toNat) :
    s.Counts call (t, .answered r) := by
  intro k
  rw [h, Exchange.weight_of_not_isRecounted hr, Exchange.adds, hcall, Option.any_some]

theorem counts_complete (h : goal.kind? = call.kind?) (s : Service)
    (allowed : Option (List String)) :
    s.Counts call ((s.complete allowed goal).1, .answered (s.complete allowed goal).2) := by
  cases goal with
  | start => exact counts_of_kind?_eq_none h.symm fun k => rfl
  | warm => exact counts_of_kind?_eq_none h.symm fun k => rfl
  | fields => exact counts_of_kind?_eq_none h.symm fun k => rfl
  | validate names => exact counts_of_kind?_eq_none h.symm fun k => tally_check s allowed names k
  | compile kind filter =>
    refine counts_of_kind?_eq_some h.symm rfl fun k => ?_
    simp [complete, Response.counts]
  | sort fields =>
    refine counts_of_kind?_eq_some h.symm rfl fun k => ?_
    simp [complete, Response.counts]

theorem counts_pause (h : goal.kind? = call.kind?) {x : Service × Phase}
    (hx : ∀ k : Tally, x.1.tally k = s.tally k) : s.Counts call (pause goal x) := by
  by_cases hdone : ∃ fields, x.2 = .done fields
  · obtain ⟨u, phase⟩ := x
    obtain ⟨fields, rfl⟩ := hdone
    have hcomplete := counts_complete h u (some fields)
    exact fun k => (hcomplete k).trans (congrArg (· + _) (hx k))
  · rw [pause_of_ne fun fields hx => hdone ⟨fields, hx⟩]
    exact ⟨hx, h⟩

theorem counts_pursue (h : goal.kind? = call.kind?) (s : Service) :
    s.Counts call (s.pursue goal) := by
  unfold pursue
  split
  · exact ⟨fun k => rfl, h⟩
  · exact counts_complete h s none

/-- A patch is counted once. -/
theorem counts_patch (s : Service) (operations : List Patch.Operation) :
    s.Counts (.patch operations)
      ((s.patch operations).1, .answered (.script (s.patch operations).2)) := by
  have honce (r : Except CompileError Patch.Script) :
      Exchange.isRecounted ⟨.patch operations, .script r⟩ = false := by
    cases r with
    | error e => rfl
    | ok script => rfl
  exact counts_of_kind?_eq_some rfl (honce _) fun k =>
    (tally_record _ rfl k).trans (tally_recordScript s _ _ k)

/-- A merge patch is counted as a script and, if its operations are refused, as a call as well. -/
theorem counts_merge (s : Service) (patch : Json) :
    s.Counts (.merge patch) ((s.merge patch).1, .answered (.script (s.merge patch).2)) := by
  cases patch with
  | object members =>
    unfold merge
    simp only [Patch.ofMerge]
    have hscript (k : Tally) := tally_recordScript s .mergePatch
      (Patch.compile s.config.createOnMerge s.config.scriptLang (Patch.mergeMembers "" members)) k
    generalize Patch.compile s.config.createOnMerge s.config.scriptLang
      (Patch.mergeMembers "" members) = r at hscript
    cases r with
    | error e =>
      intro k
      let n := (k.counts .mergePatch (.error e : Except CompileError Patch.Script)).toNat
      have hweight : Exchange.weight k ⟨.merge (.object members), .script (.error e)⟩ = n + n := by
        simp [n, Exchange.weight, Exchange.adds, Exchange.isRecounted, Call.kind?, Response.counts]
      calc
        _ = (s.recordScript .mergePatch (.error e)).tally k + n :=
          (tally_record _ rfl k).trans (counter_recordOutcome _ _ _ k)
        _ = s.tally k + (n + n) := by rw [hscript, Nat.add_assoc]
        _ = _ := congrArg _ hweight.symm
    | ok script =>
      exact counts_of_kind?_eq_some rfl rfl fun k => (tally_record _ rfl k).trans (hscript k)
  | _ =>
    exact counts_of_kind?_eq_some rfl rfl fun k =>
      (tally_record _ rfl k).trans (counter_recordOutcome s _ _ k)

/-- A call that comes is counted if it is answered at once. -/
theorem counts_accept (now : Int) (s : Service) (call : Call) :
    s.Counts call (s.accept now call) := by
  cases call with
  | start =>
    rw [accept]
    split
    · exact counts_of_kind?_eq_none rfl fun k => rfl
    · exact counts_pursue rfl (s.announce .starting)
  | filter v =>
    rw [accept]
    split
    · exact counts_pursue rfl s
    · exact counts_of_kind?_eq_some rfl rfl (tally_conclude s .filter _)
  | query v =>
    rw [accept]
    split
    · exact counts_pursue rfl s
    · exact counts_of_kind?_eq_some rfl rfl (tally_conclude s .query _)
    · exact counts_of_kind?_eq_some rfl rfl (tally_conclude s .query _)
  | filterTree filter => exact counts_pursue rfl s
  | sort fields => exact counts_pursue rfl s
  | fields => exact counts_pursue rfl s
  | validate names => exact counts_pursue rfl s
  | warm => exact counts_pursue rfl s
  | patch operations => exact counts_patch s operations
  | merge v => exact counts_merge s v
  | _ => exact counts_of_kind?_eq_none rfl fun k => rfl

end Service

namespace Traffic

variable {t u : Traffic}

/-- What was counted up to now is what the answered calls add, and a call that is on its way will be
counted as what it compiles. -/
structure Counted (t : Traffic) : Prop where
  tally_eq : ∀ k : Tally, t.service.tally k = Exchange.total k t.answered
  kind_eq : ∀ w ∈ t.waiting, w.2.goal.kind? = w.1.kind?

theorem Counted.new (config : Config) (now : Int) : (new config now).Counted where
  tally_eq _ := rfl
  kind_eq _ hw := absurd hw List.not_mem_nil

/-- A call that leaves those that are on their way. -/
theorem Counted.leave (h : t.Counted) {before after : List (Call × Job)} {w : Call × Job}
    (hwaiting : t.waiting = before ++ w :: after) :
    { t with waiting := before ++ after }.Counted where
  tally_eq := h.tally_eq
  kind_eq w' hw' := h.kind_eq w' <| by
    rw [hwaiting]
    rcases List.mem_append.1 hw' with hw' | hw'
    · exact List.mem_append_left _ hw'
    · exact List.mem_append_right _ (List.mem_cons_of_mem _ hw')

theorem Counted.put (h : t.Counted) {call : Call} {r : Service × Progress}
    (hr : t.service.Counts call r) : (t.put call r).Counted := by
  obtain ⟨s, response | job⟩ := r
  · refine ⟨fun k => (hr k).trans ?_, h.kind_eq⟩
    rw [Traffic.put, Exchange.total_append_singleton, h.tally_eq]
  · refine ⟨fun k => (hr.1 k).trans (h.tally_eq k), fun w hw => ?_⟩
    rcases List.mem_append.1 hw with hw | hw
    · exact h.kind_eq w hw
    · rw [List.mem_singleton] at hw
      rw [hw]
      exact hr.2

/-- A turn counts the call that it answers, if it answers one, and nothing else. -/
theorem Counted.turns (h : t.Counted) (hturn : t.Turns u) : u.Counted := by
  cases hturn with
  | call call => exact h.put (Service.counts_accept t.now t.service call)
  | @step before after call job x hwaiting hstep =>
    have hkind := h.kind_eq (call, job) (by simp [hwaiting])
    exact (h.leave hwaiting).put (Service.counts_pause hkind (Service.tally_step? hstep))
  | @answer before after call job hwaiting hawaits schema =>
    have hkind := h.kind_eq (call, job) (by simp [hwaiting])
    exact (h.leave hwaiting).put (Service.counts_pause hkind (Service.tally_hear _ schema _))
  | abandon hwaiting hqueue =>
    have hleft := h.leave hwaiting
    exact ⟨fun k => (Service.tally_abandon _ _ k).trans (hleft.tally_eq k), hleft.kind_eq⟩
  | pass seconds => exact ⟨h.tally_eq, h.kind_eq⟩

theorem Counted.runs (h : t.Counted) (hruns : t.Runs u) : u.Counted := by
  induction hruns with
  | refl => exact h
  | tail _ hturn ih => exact ih.turns hturn

theorem counted_of_runs {config : Config} {now : Int} (h : (new config now).Runs t) :
    t.Counted :=
  (Counted.new config now).runs h

/-- A tally tells how many calls were answered with an outcome that adds to it, except that merge
patches whose operations were refused are in it twice. So only the tallies of refused merge patches
can tell too much. -/
theorem counter_eq_countP {config : Config} {now : Int} (h : (new config now).Runs t)
    (k : Tally) :
    t.service.metrics.counter k.series = t.answered.countP (Exchange.adds k) +
        t.answered.countP (fun x => x.adds k && x.isRecounted) ∧
      (k ≠ .ended .mergePatch false → (∀ error, k ≠ .refused .mergePatch error) →
        t.service.metrics.counter k.series = t.answered.countP (Exchange.adds k)) := by
  have hcounter : t.service.metrics.counter k.series = t.answered.countP (Exchange.adds k) +
      t.answered.countP (fun x => x.adds k && x.isRecounted) := (counted_of_runs h).tally_eq k
  refine ⟨hcounter, fun hended hrefused => ?_⟩
  have hnone : t.answered.countP (fun x => x.adds k && x.isRecounted) = 0 := by
    refine List.countP_eq_zero.2 fun x _ hx => ?_
    obtain ⟨hadds, hrecounted⟩ := Bool.and_eq_true_iff.1 hx
    rcases Exchange.adds_of_isRecounted hrecounted hadds with rfl | ⟨error, rfl⟩
    · exact hended rfl
    · exact hrefused error rfl
  rw [hcounter, hnone, Nat.add_zero]

/-- The end of a list cannot be removed. Refused as a patch this is counted once, and as a merge
patch twice. -/
theorem counter_eq_countP_remove_end :
    ∃ t : Traffic, (new Config.standard 0).Runs t ∧
      t.answered.map Exchange.call =
        [.patch [.ofRemove "/-"], .merge (.object [("-", .null)])] ∧
      t.service.metrics.counter (Tally.series (.ended .patch false)) = 1 ∧
      t.service.metrics.counter (Tally.series (.ended .mergePatch false)) = 2 := by
  let first : Call := .patch [.ofRemove "/-"]
  let second : Call := .merge (.object [("-", .null)])
  let t := (new Config.standard 0).put first ((Service.new Config.standard).accept 0 first)
  let u := t.put second (t.service.accept 0 second)
  have hruns : (new Config.standard 0).Runs u := .tail (.single (.call _ first)) (.call t second)
  have hanswered : ∃ e, u.answered =
      [⟨first, .script (.error e)⟩, ⟨second, .script (.error e)⟩] :=
    ⟨.path "/-" (.endTarget "remove"), rfl⟩
  obtain ⟨e, hanswered⟩ := hanswered
  refine ⟨u, hruns, by rw [hanswered]; rfl, ?_, ?_⟩
  · rw [(counter_eq_countP hruns (.ended .patch false)).2 (by decide) nofun, hanswered]
    rfl
  · rw [(counter_eq_countP hruns (.ended .mergePatch false)).1, hanswered]
    rfl

/-- Every tally tells how many calls were answered with an outcome that adds to it. -/
def CountsOnce : Prop :=
  ∀ (config : Config) (now : Int) (t : Traffic), (new config now).Runs t →
    ∀ k : Tally, t.service.metrics.counter k.series = t.answered.countP (Exchange.adds k)

/-- A single merge patch whose operations are refused breaks this. -/
theorem not_countsOnce : ¬CountsOnce := by
  intro h
  let call : Call := .merge (.object [("-", .null)])
  let t := (new Config.standard 0).put call ((Service.new Config.standard).accept 0 call)
  have hruns : (new Config.standard 0).Runs t := .single (.call _ call)
  have hanswered : ∃ e, t.answered = [⟨call, .script (.error e)⟩] :=
    ⟨.path "/-" (.endTarget "remove"), rfl⟩
  obtain ⟨e, hanswered⟩ := hanswered
  have hcounted := (counted_of_runs hruns).tally_eq (.ended .mergePatch false)
  have honce := h Config.standard 0 t hruns (.ended .mergePatch false)
  rw [hanswered] at hcounted honce
  have htwice : (2 : Nat) = 1 := hcounted.symm.trans honce
  omega

end Traffic

end Catalog
