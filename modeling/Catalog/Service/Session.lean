import Catalog.Service.Run

/-!
# Sessions

A session is a service beside the schema of its catalog. Steps are calls, questions about the
service, and changes of the schema, which may also be set to fail. One step holds the schema's
answer back: a call is begun, other steps are run while it waits, and then it is finished with the
answer that the schema gives at that time. A step that would have to wait for the lock meanwhile is
abandoned. No time passes during a session.
-/

namespace Catalog

/-- A service beside the schema of its catalog. -/
structure Session where
  service : Service
  fields : Schema
  /-- The schema gives no answer when it is asked. -/
  failing : Bool
  /-- How often the schema was asked. -/
  asked : Nat
  /-- How many announcements of the lifecycle were looked at. -/
  seen : Nat

/-- A step of a session. -/
inductive Step where
  | call (call : Call)
  /-- A call whose contents cannot be read. -/
  | unreadable
  | state
  /-- Look at the announcements of the lifecycle. -/
  | watch
  /-- Change the fields of the schema, or whether it fails. -/
  | schema (fields : Option Schema) (failing : Option Bool)
  | asked
  | enabled
  | stats
  | resolve (name : String)
  | isMapped (name : String)
  | config
  | metrics
  /-- Run steps while a call waits for the schema. -/
  | during (call : Call) (steps : List Step)
  deriving Inhabited

/-- The numbers of a cache. -/
structure CacheStats where
  refreshes : Nat
  failures : Nat
  staleReads : Nat
  fieldCount : Nat
  loaded : Bool

/-- The answer to a step. -/
inductive Reply where
  | response (response : Response)
  | unreadable
  /-- The step would have to wait. -/
  | pending
  | watched (changed : Bool) (state : Lifecycle)
  | done
  | count (n : Nat)
  | flag (value : Bool)
  | stats (stats : CacheStats)
  | path (path : String)
  | config (config : Config)
  | metrics (metrics : Metrics)
  /-- Whether the call had to wait, the answers meanwhile, and the answer to the call. -/
  | during (blocked : Bool) (replies : List Reply) (trigger : Reply)
  deriving Inhabited

namespace Session

/-- The instant of all steps. -/
def now : Int := 0

/-- A session with a new service. -/
def new (config : Config) (fields : Schema) (failing : Bool) : Session :=
  ⟨Service.new config, fields, failing, 0, 0⟩

/-- The answer that the schema gives now. -/
def answer (s : Session) : Option Schema := if s.failing then none else some s.fields

/-- The numbers of the cache. -/
def stats (s : Session) : CacheStats :=
  let c := s.service.cache
  ⟨c.refreshes, c.failures, c.staleReads, c.snapshot.fields.length, c.snapshot.loadedAt.isSome⟩

/-- Take what came of a call; a job that still waits is abandoned. -/
def settle (s : Session) (service : Service) : Progress → Session × Reply
  | .answered r => ({ s with service := service }, .response r)
  | .running job => ({ s with service := service.abandon job }, .pending)

/-- Run a call. -/
def perform (s : Session) (call : Call) : Session × Reply :=
  let r := s.service.perform now s.answer call
  { s with asked := s.asked + if r.asked then 1 else 0 }.settle r.service r.progress

/-- Finish a job that waits for the schema. -/
def deliver (s : Session) (job : Job) : Session × Reply :=
  let (service, progress) := s.service.deliver now s.answer job
  s.settle service progress

mutual

/-- Run a step. -/
def step (s : Session) : Step → Session × Reply
  | .call call => s.perform call
  | .unreadable => (s, .unreadable)
  | .state => (s, .response (.state s.service.state))
  | .watch =>
    ({ s with seen := s.service.announcements },
      .watched (decide (s.seen < s.service.announcements)) s.service.state)
  | .schema fields failing =>
    ({ s with fields := fields.getD s.fields, failing := failing.getD s.failing }, .done)
  | .asked => (s, .count s.asked)
  | .enabled => (s, .flag s.service.cache.enabled)
  | .stats => (s, .stats s.stats)
  | .resolve name => (s, .path (s.service.cache.mapping.resolve name))
  | .isMapped name => (s, .flag (s.service.cache.mapping.isMapped name))
  | .config => (s, .config s.service.config)
  | .metrics => (s, .metrics s.service.metrics)
  | .during call inner =>
    match s.service.issue now call with
    | (service, .answered r) =>
      let (s, replies) := steps { s with service := service } inner
      (s, .during false replies (.response r))
    | (service, .running job) =>
      if job.isAwaiting then
        let (s, replies) := steps { s with service := service, asked := s.asked + 1 } inner
        let (s, reply) := s.deliver job
        (s, .during true replies reply)
      else
        let (s, replies) := steps { s with service := service.abandon job } inner
        (s, .during false replies .pending)

/-- Run steps in order. -/
def steps (s : Session) : List Step → Session × List Reply
  | [] => (s, [])
  | first :: rest =>
    let (s, reply) := s.step first
    let (s, replies) := s.steps rest
    (s, reply :: replies)

end

end Session

end Catalog
