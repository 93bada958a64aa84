import Catalog.Proofs.Service.Visits

/-!
# What a service has been told

What a service knows of its schema comes from what it has been told: the answers of the schema, and
the calls that make it forget its fields or mark them as stale. After any number of visits the cache
follows this history. It holds the last good answer since the fields were forgotten, names and paths
alike, and it counts all answers. The fields are fresh for no longer than since they were loaded,
and they are stale for sure when nothing was loaded since they were forgotten or marked as stale.
-/

namespace Catalog

/-- Something that bears on what a service knows of its schema. -/
inductive Happening where
  /-- The schema was asked and has answered, or has failed to. -/
  | heard (answer : Option Schema)
  | forgotten
  | marked

namespace Happening

/-- The schema has answered. -/
def isAnswer : Happening → Bool
  | .heard (some _) => true
  | _ => false

/-- The schema has failed to answer. -/
def isFailure : Happening → Bool
  | .heard none => true
  | _ => false

/-- What is known from now on, unless this stays the same. -/
def leaves? : Happening → Option Schema
  | .heard (some entries) => some entries
  | .forgotten => some []
  | _ => none

/-- Whether the fields are loaded from now on, unless this stays the same. -/
def loads? : Happening → Option Bool
  | .heard (some _) => some true
  | .heard none => none
  | .forgotten => some false
  | .marked => some false

end Happening

/-- The last answer since the fields were forgotten, if there is one. -/
def lastGood (history : List Happening) : Schema :=
  (history.reverse.findSome? Happening.leaves?).getD []

/-- The schema has answered since the fields were forgotten or marked as stale. -/
def isLoaded (history : List Happening) : Bool :=
  (history.reverse.findSome? Happening.loads?).getD false

section

variable (history : List Happening)

@[simp] theorem lastGood_append_singleton (x : Happening) :
    lastGood (history ++ [x]) = x.leaves?.getD (lastGood history) := by
  rw [lastGood, lastGood, List.reverse_append, List.reverse_singleton, List.singleton_append,
    List.findSome?_cons]
  cases x.leaves? with
  | none => rfl
  | some entries => rfl

@[simp] theorem isLoaded_append_singleton (x : Happening) :
    isLoaded (history ++ [x]) = x.loads?.getD (isLoaded history) := by
  rw [isLoaded, isLoaded, List.reverse_append, List.reverse_singleton, List.singleton_append,
    List.findSome?_cons]
  cases x.loads? with
  | none => rfl
  | some loaded => rfl

end

/-- What a call adds to the history by itself. -/
def Call.happenings : Call → List Happening
  | .shutdown => [.forgotten]
  | .clear => [.forgotten]
  | .invalidate => [.marked]
  | _ => []

theorem Call.Reaches.happenings_eq {call : Call} {state : Lifecycle} {goal : Goal}
    (h : call.Reaches state goal) : call.happenings = [] := by
  cases h with
  | _ => rfl

/-- The cache holds what the history says, which begins at `start` and goes on until `now`. -/
structure Cache.Follows (start now : Int) (history : List Happening) (c : Cache) : Prop where
  free : c.locked = false
  mapping_eq : c.mapping = ⟨lastGood history⟩
  fields_eq : c.snapshot.fields = (lastGood history).map Prod.fst
  refreshes_eq : c.refreshes = history.countP Happening.isAnswer
  failures_eq : c.failures = history.countP Happening.isFailure
  staleReads_eq : c.staleReads = 0
  le_now : ∀ instant ∈ c.snapshot.loadedAt, instant ≤ now
  loaded : isLoaded history = true → ∃ instant ∈ c.snapshot.loadedAt, start ≤ instant
  stale : isLoaded history = false →
    ∀ instant ∈ c.snapshot.loadedAt, (c.timeToLive : Int) ≤ now - instant

namespace Cache.Follows

variable {start now later : Int} {history : List Happening} {c : Cache}

theorem new (now : Int) (enabled : Bool) (timeToLive : Nat) :
    (Cache.new enabled timeToLive).Follows now now [] where
  free := rfl
  mapping_eq := rfl
  fields_eq := rfl
  refreshes_eq := rfl
  failures_eq := rfl
  staleReads_eq := rfl
  le_now _ h := nomatch h
  loaded h := nomatch h
  stale _ _ h := nomatch h

/-- The passing of time makes nothing fresh. -/
theorem mono (h : c.Follows start now history) (hle : now ≤ later) :
    c.Follows start later history :=
  { h with
    le_now := fun instant hmem => Int.le_trans (h.le_now instant hmem) hle
    stale := fun hload instant hmem => by
      have hstale := h.stale hload instant hmem
      omega }

/-- An answer is known from now on, and a failure leaves everything as it is but the count. -/
theorem receive (h : c.Follows start now history) (hle : start ≤ now) (answer : Option Schema) :
    (c.receive now answer).Follows start now (history ++ [.heard answer]) := by
  cases answer with
  | some entries =>
    exact {
      free := h.free
      mapping_eq := by rw [lastGood_append_singleton]; rfl
      fields_eq := by rw [lastGood_append_singleton]; rfl
      refreshes_eq := by simp [Cache.receive, Happening.isAnswer, h.refreshes_eq]
      failures_eq := by simp [Cache.receive, Happening.isFailure, h.failures_eq]
      staleReads_eq := h.staleReads_eq
      le_now := fun instant hmem => Int.le_of_eq (Option.some.inj hmem).symm
      loaded := fun _ => ⟨now, rfl, hle⟩
      stale := fun hload => by simp [Happening.loads?] at hload }
  | none =>
    exact {
      free := h.free
      mapping_eq := by rw [lastGood_append_singleton]; exact h.mapping_eq
      fields_eq := by rw [lastGood_append_singleton]; exact h.fields_eq
      refreshes_eq := by simp [Cache.receive, Happening.isAnswer, h.refreshes_eq]
      failures_eq := by simp [Cache.receive, Happening.isFailure, h.failures_eq]
      staleReads_eq := h.staleReads_eq
      le_now := h.le_now
      loaded := by rw [isLoaded_append_singleton]; exact h.loaded
      stale := by rw [isLoaded_append_singleton]; exact h.stale }

theorem clear (h : c.Follows start now history) :
    c.clear.1.Follows start now (history ++ [.forgotten]) where
  free := h.free
  mapping_eq := by rw [lastGood_append_singleton]; rfl
  fields_eq := by rw [lastGood_append_singleton]; rfl
  refreshes_eq := by simp [Cache.clear, Happening.isAnswer, h.refreshes_eq]
  failures_eq := by simp [Cache.clear, Happening.isFailure, h.failures_eq]
  staleReads_eq := h.staleReads_eq
  le_now _ hmem := nomatch hmem
  loaded hload := by simp [Happening.loads?] at hload
  stale _ _ hmem := nomatch hmem

theorem invalidate (h : c.Follows start now history) :
    (c.invalidate now).Follows start now (history ++ [.marked]) := by
  obtain ⟨loadedAt, heq, hloadedAt⟩ := c.invalidate_eq now
  rw [heq]
  exact {
    free := h.free
    mapping_eq := by rw [lastGood_append_singleton]; exact h.mapping_eq
    fields_eq := by rw [lastGood_append_singleton]; exact h.fields_eq
    refreshes_eq := by simp [Happening.isAnswer, h.refreshes_eq]
    failures_eq := by simp [Happening.isFailure, h.failures_eq]
    staleReads_eq := h.staleReads_eq
    le_now := fun instant hmem => by
      have hinstant := hloadedAt instant hmem
      omega
    loaded := fun hload => by simp [Happening.loads?] at hload
    stale := fun _ instant hmem => by
      have hinstant := hloadedAt instant hmem
      show (c.timeToLive : Int) ≤ now - instant
      omega }

/-- A call by itself keeps to the history. -/
theorem change (h : c.Follows start now history) (call : Call) :
    (call.change now c).Follows start now (history ++ call.happenings) := by
  cases call with
  | shutdown => exact h.clear
  | clear => exact h.clear
  | invalidate => exact h.invalidate
  | _ => exact (List.append_nil history).symm ▸ h

end Cache.Follows

namespace Idle

variable {start : Int} {past : List Happening} {i : Idle}

/-- What is added to the history by a visit. -/
def happenings (i : Idle) (v : Visit) : List Happening :=
  (if (i.serve v).asked then [.heard v.answer] else []) ++ v.call.happenings

/-- The history of several visits. -/
def history (i : Idle) : List Visit → List Happening
  | [] => []
  | v :: visits => i.happenings v ++ (i.next v).history visits

/-- A service with these settings follows a history, which begins at `start`. -/
structure Follows (config : Config) (start : Int) (past : List Happening) (i : Idle) :
    Prop where
  enabled_eq : i.service.cache.enabled = config.validateFields
  timeToLive_eq : i.service.cache.timeToLive = config.timeToLive
  steady : i.service.state ≠ .starting
  le_now : start ≤ i.now
  cache : i.service.cache.Follows start i.now past

variable {config : Config}

theorem follows_new (config : Config) (now : Int) : (new config now).Follows config now [] where
  enabled_eq := rfl
  timeToLive_eq := rfl
  steady := by simp [new, Service.new]
  le_now := Int.le_refl now
  cache := .new now _ _

/-- A visit is heard of in the history, and the service follows it. -/
theorem Follows.next (h : i.Follows config start past) (v : Visit) :
    (i.next v).Follows config start (past ++ i.happenings v) := by
  have hserved := served h.cache.free h.steady v
  have hwait : i.now ≤ i.now + v.wait := by omega
  have hdelay : i.now + v.wait ≤ i.now + v.wait + v.delay := by omega
  have hstart : start ≤ i.now + v.wait + v.delay :=
    Int.le_trans h.le_now (Int.le_trans hwait hdelay)
  have hcache := hserved.cache_eq
  have hsteady : (i.next v).service.state ≠ .starting := by
    rw [Idle.next, hserved.state_eq]
    have hold := h.steady
    cases v.call with
    | start => exact nofun
    | shutdown => exact nofun
    | _ => exact hold
  cases hasked : (i.serve v).asked with
  | true =>
    obtain ⟨-, goal, hreaches, -⟩ := hserved.asked_iff.1 hasked
    rw [hasked, if_pos rfl] at hcache
    have hhappenings : i.happenings v = [.heard v.answer] := by
      rw [happenings, hasked, hreaches.happenings_eq]
      rfl
    refine ⟨?_, ?_, hsteady, hstart, ?_⟩
    · rw [Idle.next, hcache, Cache.enabled_receive, h.enabled_eq]
    · rw [Idle.next, hcache, Cache.timeToLive_receive, h.timeToLive_eq]
    · rw [hhappenings, Idle.next, hcache]
      exact (h.cache.mono (Int.le_trans hwait hdelay)).receive hstart v.answer
  | false =>
    rw [hasked, if_neg (by decide)] at hcache
    have hhappenings : i.happenings v = v.call.happenings := by
      rw [happenings, hasked]
      rfl
    refine ⟨?_, ?_, hsteady, hstart, ?_⟩
    · rw [Idle.next, hcache, Call.enabled_change, h.enabled_eq]
    · rw [Idle.next, hcache, Call.timeToLive_change, h.timeToLive_eq]
    · rw [hhappenings, Idle.next, hcache]
      exact ((h.cache.mono hwait).change v.call).mono hdelay

/-- So does the service behind any number of visits. -/
theorem Follows.after (h : i.Follows config start past) (visits : List Visit) :
    (i.after visits).Follows config start (past ++ i.history visits) := by
  induction visits generalizing i past with
  | nil => rwa [Idle.history, List.append_nil]
  | cons v visits ih =>
    rw [Idle.history, ← List.append_assoc]
    exact ih (h.next v)

/-- The visits of a service that was just made. -/
theorem follows (config : Config) (now : Int) (visits : List Visit) :
    ((new config now).after visits).Follows config now ((new config now).history visits) :=
  (follows_new config now).after visits

end Idle

end Catalog
