import Catalog.Mapping
import Catalog.Metrics

/-!
# The cache of queryable fields

The catalog's schema says which fields may be queried and at which path each of them is stored. The
cache keeps the names of the last answer together with the instant at which it came; the paths are
the dynamic entries of the mapping. A lock is held by whoever asks the schema, so that nobody else
asks at the same time. Instants are whole seconds of a clock.
-/

namespace Catalog

/-- The fields of a schema, a path for each name. -/
abbrev Schema := List (String × String)

/-- The names known last. Without an instant they have to be asked for before they are used. -/
structure Snapshot where
  fields : List String
  loadedAt : Option Int
  deriving DecidableEq, Repr

/-- Nothing is known. -/
def Snapshot.empty : Snapshot := ⟨[], none⟩

/-- The cache, with the mapping that it feeds and the numbers of what happened to it. -/
structure Cache where
  /-- A cache that is switched off knows no fields and asks nobody. -/
  enabled : Bool
  /-- For how many seconds an answer stays fresh. -/
  timeToLive : Nat
  snapshot : Snapshot
  mapping : Mapping
  /-- Somebody asks the schema, or is about to. -/
  locked : Bool
  refreshes : Nat
  failures : Nat
  staleReads : Nat
  deriving DecidableEq, Repr

namespace Cache

/-- A cache that knows nothing yet. -/
def new (enabled : Bool) (timeToLive : Nat) : Cache :=
  ⟨enabled, timeToLive, .empty, .empty, false, 0, 0, 0⟩

/-- The snapshot is as old as an answer may get, or has no instant. -/
def isStale (c : Cache) (now : Int) : Bool :=
  match c.snapshot.loadedAt with
  | some instant => decide (c.timeToLive ≤ now - instant)
  | none => true

/-- The earliest instant of the clock. -/
def earliest : Int := -(Nat.pow 2 63 : Nat)

/-- Make a loaded snapshot as old as it may get. When the clock does not reach back that far, the
snapshot loses its instant and keeps its names. -/
def invalidate (c : Cache) (now : Int) : Cache :=
  match c.snapshot.loadedAt with
  | some _ =>
    let instant := now - c.timeToLive
    { c with snapshot.loadedAt := if earliest ≤ instant then some instant else none }
  | none => c

/-- Forget the snapshot and the mapping entries that came with it. -/
def clear (c : Cache) : Cache × List Event :=
  ({ c with snapshot := .empty, mapping := .empty }, [.fields 0])

end Cache

end Catalog
