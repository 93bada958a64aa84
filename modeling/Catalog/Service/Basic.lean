import Catalog.Config
import Catalog.Error
import Catalog.Queryables.Cache

/-!
# The catalog service

A service answers requests about one catalog. It has settings, the cache of queryable fields with
the mapping, a lifecycle and metrics. Every change of the lifecycle is announced, also a change to
the state that was there before.
-/

namespace Catalog

/-- The states of a service. -/
inductive Lifecycle where
  | created
  | starting
  | ready
  | shuttingDown
  | stopped
  deriving DecidableEq, Repr

/-- The written name of a state. -/
def Lifecycle.name : Lifecycle → String
  | .created => "Created"
  | .starting => "Starting"
  | .ready => "Ready"
  | .shuttingDown => "ShuttingDown"
  | .stopped => "Stopped"

/-- What is compiled. -/
inductive CompileKind where
  | filter
  | query
  | sort
  | patch
  | mergePatch
  deriving DecidableEq, Repr

/-- The label under which a kind is counted. -/
def CompileKind.name : CompileKind → String
  | .filter => "filter"
  | .query => "query"
  | .sort => "sortby"
  | .patch => "patch"
  | .mergePatch => "merge_patch"

/-- A service. -/
structure Service where
  config : Config
  cache : Cache
  metrics : Metrics
  state : Lifecycle
  /-- How many changes of the lifecycle were announced. -/
  announcements : Nat
  deriving DecidableEq, Repr

namespace Service

/-- A service that was just made. Its first state is measured but not announced. -/
def new (config : Config) : Service where
  config := config
  cache := Cache.new config.validateFields config.timeToLive
  metrics := Metrics.empty.record (.lifecycle Lifecycle.created.name)
  state := .created
  announcements := 0

/-- Measure an event. -/
def record (s : Service) (e : Event) : Service := { s with metrics := s.metrics.record e }

/-- Enter a state. -/
def announce (s : Service) (state : Lifecycle) : Service :=
  { s with state := state, announcements := s.announcements + 1 }.record (.lifecycle state.name)

/-- Count how a compilation has ended. -/
def recordOutcome {α : Type} (s : Service) (kind : CompileKind) :
    Except CompileError α → Service
  | .ok _ => s.record (.compilation kind.name "success")
  | .error e => s.record (.refusal kind.name e.kind)

/-- The service takes requests at full speed. -/
def isReady (s : Service) : Bool := s.state == .ready

/-- Mark the snapshot of the fields as stale. -/
def invalidate (now : Int) (s : Service) : Service := { s with cache := s.cache.invalidate now }

/-- Forget the fields. -/
def clear (s : Service) : Service :=
  let (cache, events) := s.cache.clear
  { s with cache := cache, metrics := s.metrics.recordAll events }

end Service

end Catalog
