import Catalog.Proofs.Queryables.Access

/-!
# What an access does to the cache

With the lock free, an access comes to its end in at most two turns. A read of fresh fields ends at
once and changes nothing. Every other access takes the lock and asks the schema, once, and what is
left behind at its end depends on the answer alone: a schema becomes the mapping and its names the
snapshot, while a failure is counted and changes nothing else.
-/

namespace Catalog

/-- The cache when the schema has answered at an instant, or has failed to. -/
def Cache.receive (c : Cache) (instant : Int) : Option Schema → Cache
  | some entries =>
    { c with
      mapping := ⟨entries⟩
      snapshot := ⟨entries.map Prod.fst, some instant⟩
      refreshes := c.refreshes + 1 }
  | none => { c with failures := c.failures + 1 }

namespace Cache

variable {c : Cache} {now : Int}

/-- Names that were loaded need to be asked for again when they are as old as an answer may get. -/
theorem isStale_iff : c.isStale now = true ↔
    ∀ instant ∈ c.snapshot.loadedAt, (c.timeToLive : Int) ≤ now - instant := by
  unfold isStale
  cases c.snapshot.loadedAt with
  | none => simp
  | some instant => simp

/-- What is stale stays stale as long as nothing is put into the snapshot. -/
theorem isStale_of_le {c' : Cache} {now' : Int} (hnow : now ≤ now')
    (htimeToLive : c'.timeToLive = c.timeToLive) (hsnapshot : c'.snapshot = c.snapshot)
    (h : c.isStale now = true) : c'.isStale now' = true := by
  rw [isStale_iff] at h ⊢
  intro instant hinstant
  have hage := h instant (hsnapshot ▸ hinstant)
  rw [htimeToLive]
  omega

/-- Marking the fields as stale leaves them just as old as an answer may get, or without an
instant. -/
theorem invalidate_eq (c : Cache) (now : Int) :
    ∃ loadedAt : Option Int, c.invalidate now = { c with snapshot.loadedAt := loadedAt } ∧
      ∀ instant ∈ loadedAt, instant = now - c.timeToLive := by
  unfold invalidate
  split
  · refine ⟨_, rfl, fun instant hmem => ?_⟩
    split at hmem
    · exact (Option.some.inj hmem).symm
    · cases hmem
  · next hloaded => exact ⟨c.snapshot.loadedAt, rfl, by simp [hloaded]⟩

/-- Fields that were marked as stale are stale. -/
theorem isStale_invalidate (c : Cache) (now : Int) : (c.invalidate now).isStale now = true := by
  obtain ⟨loadedAt, heq, hloadedAt⟩ := c.invalidate_eq now
  rw [heq, isStale_iff]
  intro instant hinstant
  have hage := hloadedAt instant hinstant
  dsimp only
  omega

@[simp] theorem enabled_receive (c : Cache) (instant : Int) (schema : Option Schema) :
    (c.receive instant schema).enabled = c.enabled := by
  cases schema with
  | none => rfl
  | some entries => rfl

@[simp] theorem timeToLive_receive (c : Cache) (instant : Int) (schema : Option Schema) :
    (c.receive instant schema).timeToLive = c.timeToLive := by
  cases schema with
  | none => rfl
  | some entries => rfl

theorem unlock_lock (hfree : c.locked = false) :
    { { c with locked := true } with locked := false } = c := by
  cases c
  subst hfree
  rfl

end Cache

namespace Phase

variable {now : Int} {c : Cache}

/-- Fresh fields are used as they are. -/
theorem run_look_of_fresh (hfresh : c.isStale now = false) :
    look.run now c = (c, [], .done c.snapshot.fields) := by
  have hloaded : c.snapshot.loadedAt ≠ none := by
    intro h
    simp [Cache.isStale, h] at hfresh
  obtain ⟨instant, hinstant⟩ := Option.ne_none_iff_exists'.1 hloaded
  have hstep : look.step? now c = some (c, [], .done c.snapshot.fields) := by
    simp [step?, hinstant, hfresh]
  rw [run_of_step? hstep, run_of_waits rfl]
  rfl

theorem run_ask (now : Int) (c : Cache) (purpose : Purpose) :
    (ask purpose).run now c = (c, [], .await purpose) := by
  rw [run_of_step? rfl, run_of_waits rfl]
  rfl

/-- Whoever wants stale fields takes the lock, finds them stale still, and asks. -/
theorem run_look_of_stale (hfree : c.locked = false) (hstale : c.isStale now = true) :
    look.run now c = ({ c with locked := true }, [], .await .read) := by
  cases hloaded : c.snapshot.loadedAt with
  | none =>
    have hlook : look.step? now c = some (c, [], .queue .read) := by simp [step?, hloaded]
    have hlock : (queue .read).step? now c =
        some ({ c with locked := true }, [], .recheckCold) := by simp [step?, hfree]
    have hcheck : recheckCold.step? now { c with locked := true } =
        some ({ c with locked := true }, [], .ask .read) := by simp [step?, hloaded]
    rw [run_of_step? hlook, run_of_step? hlock, run_of_step? hcheck, run_ask]
    rfl
  | some instant =>
    have hlook : look.step? now c = some (c, [], .contend c.snapshot.fields) := by
      simp [step?, hloaded, hstale]
    have hlock : (contend c.snapshot.fields).step? now c =
        some ({ c with locked := true }, [], .recheckStale) := by simp [step?, hfree]
    have hcheck : recheckStale.step? now { c with locked := true } =
        some ({ c with locked := true }, [], .ask .read) := by
      have hstill : ({ c with locked := true } : Cache).isStale now = true := hstale
      simp [step?, hstill]
    rw [run_of_step? hlook, run_of_step? hlock, run_of_step? hcheck, run_ask]
    rfl

/-- Warming asks whatever the cache holds. -/
theorem run_queue_warm (hfree : c.locked = false) :
    (queue .warm).run now c = ({ c with locked := true }, [], .await .warm) := by
  have hlock : (queue .warm).step? now c = some ({ c with locked := true }, [], .ask .warm) := by
    simp [step?, hfree]
  rw [run_of_step? hlock, run_ask]
  rfl

end Phase

namespace Purpose

/-- The first phase of an access. -/
def firstPhase : Purpose → Phase
  | .read => .look
  | .warm => .queue .warm

/-- The access has to ask the schema. -/
def asks (now : Int) (c : Cache) : Purpose → Bool
  | .read => c.isStale now
  | .warm => true

/-- The fields with which an access ends. -/
def found (c : Cache) : Purpose → List String
  | .read => c.snapshot.fields
  | .warm => []

end Purpose

namespace Phase

variable {now : Int} {c : Cache} {purpose : Purpose}

/-- With the lock free, an access that has to ask waits for nobody but the schema. -/
theorem run_firstPhase_of_asks (hfree : c.locked = false) (hasks : purpose.asks now c = true) :
    purpose.firstPhase.run now c = ({ c with locked := true }, [], .await purpose) := by
  cases purpose with
  | read => exact run_look_of_stale hfree hasks
  | warm => exact run_queue_warm hfree

/-- Any other access ends at once. -/
theorem run_firstPhase_of_not_asks (hasks : purpose.asks now c = false) :
    purpose.firstPhase.run now c = (c, [], .done (purpose.found c)) := by
  cases purpose with
  | read => exact run_look_of_fresh hasks
  | warm => cases hasks

/-- What follows on an answer gives the lock back and changes nothing else. -/
theorem run_afterAnswer (now : Int) (hfree : c.locked = false) (purpose : Purpose) :
    (afterAnswer purpose).run now { c with locked := true } =
      (c, [], .done (purpose.found c)) := by
  have hunlock := Cache.unlock_lock hfree
  cases purpose with
  | read =>
    have hstep : reread.step? now { c with locked := true } =
        some (c, [], .done c.snapshot.fields) := by rw [step?, hunlock]
    rw [afterAnswer, run_of_step? hstep, run_of_waits rfl]
    rfl
  | warm =>
    have hstep : release.step? now { c with locked := true } = some (c, [], .done []) := by
      rw [step?, hunlock]
    rw [afterAnswer, run_of_step? hstep, run_of_waits rfl]
    rfl

/-- An answer brings an access to its end that held the lock and waited for it. -/
theorem run_answer (now : Int) (hfree : c.locked = false) (schema : Option Schema)
    (purpose : Purpose) :
    ∃ events, ((await purpose).answer { c with locked := true } schema).2.2.run now
        ((await purpose).answer { c with locked := true } schema).1 =
      (c.receive now schema, events, .done (purpose.found (c.receive now schema))) := by
  cases schema with
  | none =>
    have hfree' : (c.receive now none).locked = false := hfree
    exact ⟨_, run_afterAnswer now hfree' purpose⟩
  | some entries =>
    have hfree' : (c.receive now (some entries)).locked = false := hfree
    simp only [answer]
    rw [run_of_step? rfl, run_of_step? rfl]
    have hlast := run_afterAnswer now hfree' purpose
    exact ⟨_, Prod.ext (congrArg (·.1) hlast) (Prod.ext rfl (congrArg (·.2.2) hlast))⟩

end Phase

end Catalog
