import Catalog.Queryables.Cache

/-!
# Access to the cache

Reading the fields and warming the cache are made of atomic steps, between which other callers may
take steps of their own. A phase says what a caller does next. Fresh fields are used as they are.
Stale fields are refreshed by the one caller that gets the lock, while all others continue with the
fields they have seen. Without any fields a caller waits for the lock and asks only if nobody else
has had an answer in the meantime. Who has the lock keeps it until the end of its access.
-/

namespace Catalog

/-- What a caller wants. -/
inductive Purpose where
  /-- Know the fields. -/
  | read
  /-- Ask the schema whatever the cache holds. -/
  | warm
  deriving DecidableEq, Repr

/-- What a caller does next. -/
inductive Phase where
  /-- Look at the snapshot. -/
  | look
  /-- Take the lock if it is free, after seeing stale fields. -/
  | contend (seen : List String)
  /-- Wait for the lock. -/
  | queue (purpose : Purpose)
  /-- Holding the lock, look again whether the snapshot is stale. -/
  | recheckStale
  /-- Holding the lock, look again whether the snapshot has an instant. -/
  | recheckCold
  /-- Holding the lock, ask the schema. -/
  | ask (purpose : Purpose)
  /-- Holding the lock, wait for the answer. -/
  | await (purpose : Purpose)
  /-- Holding the lock, put the answer into the mapping. -/
  | learn (purpose : Purpose) (answer : Schema)
  /-- Holding the lock, put the answer into the snapshot. -/
  | publish (purpose : Purpose) (answer : Schema)
  /-- Holding the lock, read the fields, and give the lock back. -/
  | reread
  /-- Give the lock back. -/
  | release
  /-- The access has ended; a read has the fields. -/
  | done (fields : List String)
  deriving DecidableEq, Repr

namespace Phase

/-- What follows on an answer, whichever it was. -/
def afterAnswer : Purpose → Phase
  | .read => .reread
  | .warm => .release

/-- The next step of a caller. There is none while it waits and after its end. -/
def step? (now : Int) (c : Cache) : Phase → Option (Cache × List Event × Phase)
  | .look =>
    match c.snapshot.loadedAt with
    | none => some (c, [], .queue .read)
    | some _ =>
      some (c, [], if c.isStale now then .contend c.snapshot.fields else .done c.snapshot.fields)
  | .contend seen =>
    if c.locked then some ({ c with staleReads := c.staleReads + 1 }, [], .done seen)
    else some ({ c with locked := true }, [], .recheckStale)
  | .queue purpose =>
    if c.locked then none
    else some ({ c with locked := true }, [],
      match purpose with
      | .read => .recheckCold
      | .warm => .ask .warm)
  | .recheckStale => some (c, [], if c.isStale now then .ask .read else .reread)
  | .recheckCold => some (c, [], if c.snapshot.loadedAt.isNone then .ask .read else .reread)
  | .ask purpose => some (c, [], .await purpose)
  | .await _ => none
  | .learn purpose answer => some ({ c with mapping := ⟨answer⟩ }, [], .publish purpose answer)
  | .publish purpose answer =>
    let fields := answer.map Prod.fst
    some ({ c with snapshot := ⟨fields, some now⟩, refreshes := c.refreshes + 1 },
      [.refresh true, .fields fields.length], afterAnswer purpose)
  | .reread => some ({ c with locked := false }, [], .done c.snapshot.fields)
  | .release => some ({ c with locked := false }, [], .done [])
  | .done _ => none

/-- Hand an answer of the schema to a caller that waits for one. Without an answer everything that
is known stays as it is. -/
def answer (c : Cache) (schema : Option Schema) : Phase → Cache × List Event × Phase
  | .await purpose =>
    match schema with
    | some entries => (c, [], .learn purpose entries)
    | none => ({ c with failures := c.failures + 1 }, [.refresh false], afterAnswer purpose)
  | p => (c, [], p)

/-- How many steps a caller has before it at most. -/
def rank : Phase → Nat
  | .look => 8
  | .contend _ => 7
  | .queue _ => 7
  | .recheckStale => 6
  | .recheckCold => 6
  | .ask _ => 5
  | .await _ => 4
  | .learn _ _ => 3
  | .publish _ _ => 2
  | .reread => 1
  | .release => 1
  | .done _ => 0

theorem rank_step? {now : Int} {c : Cache} {p : Phase} {r : Cache × List Event × Phase}
    (h : p.step? now c = some r) : r.2.2.rank < p.rank := by
  cases p with
  | look =>
    simp only [step?] at h
    split at h
    · cases h; simp [rank]
    · cases h; by_cases hs : c.isStale now <;> simp [hs, rank]
  | contend seen => simp only [step?] at h; split at h <;> cases h <;> simp [rank]
  | queue purpose =>
    simp only [step?] at h
    split at h
    · simp at h
    · cases h; cases purpose <;> simp [rank]
  | recheckStale => cases h; by_cases hs : c.isStale now <;> simp [hs, rank]
  | recheckCold => cases h; by_cases hs : c.snapshot.loadedAt.isNone <;> simp [hs, rank]
  | ask purpose => cases h; simp [rank]
  | await purpose => simp [step?] at h
  | learn purpose answer => cases h; simp [rank]
  | publish purpose answer => cases h; cases purpose <;> simp [rank, afterAnswer]
  | reread => cases h; simp [rank]
  | release => cases h; simp [rank]
  | done fields => simp [step?] at h

/-- Take steps without interruption until the caller waits or has ended. -/
def run (now : Int) (c : Cache) (p : Phase) : Cache × List Event × Phase :=
  match _h : p.step? now c with
  | none => (c, [], p)
  | some (c', events, p') =>
    let (last, more, q) := run now c' p'
    (last, events ++ more, q)
termination_by p.rank
decreasing_by exact rank_step? _h

end Phase

end Catalog
