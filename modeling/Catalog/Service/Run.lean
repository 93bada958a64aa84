import Catalog.Service.Call

/-!
# Running calls

A call runs until it is answered or has to wait, for the lock or for the schema. When the schema is
reached its answer is handed to the job, which then goes on to the end, since it holds the lock. A
call that would wait for the lock can be abandoned; what it did before stays.
-/

namespace Catalog

namespace Job

/-- The job waits for the answer of the schema. -/
def isAwaiting (j : Job) : Bool :=
  match j.phase with
  | .await _ => true
  | _ => false

end Job

namespace Service

/-- Let a job proceed as far as it can. -/
def advance (now : Int) (s : Service) (job : Job) : Service × Progress :=
  let (cache, events, phase) := job.phase.run now s.cache
  let s := { s with cache := cache, metrics := s.metrics.recordAll events }
  match phase with
  | .done fields =>
    let (s, r) := s.complete (some fields) job.goal
    (s, .answered r)
  | phase => (s, .running ⟨phase, job.goal⟩)

/-- Begin a call and let it proceed as far as it can. -/
def issue (now : Int) (s : Service) (call : Call) : Service × Progress :=
  match s.accept now call with
  | (s, .answered r) => (s, .answered r)
  | (s, .running job) => s.advance now job

/-- Hand the answer of the schema to a job and let it proceed. -/
def deliver (now : Int) (s : Service) (schema : Option Schema) (job : Job) : Service × Progress :=
  let (cache, events, phase) := job.phase.answer s.cache schema
  { s with cache := cache, metrics := s.metrics.recordAll events }.advance now ⟨phase, job.goal⟩

/-- Give a waiting job up. -/
def abandon (s : Service) (job : Job) : Service :=
  match job.goal.kind? with
  | some kind => s.record (.latency kind.name)
  | none => s

/-- What came of a call: the service after it, the answer unless the call is still on its way, and
whether the schema was asked. -/
structure Result where
  service : Service
  progress : Progress
  asked : Bool

/-- Run a call against a schema that answers at once when it is asked. -/
def perform (now : Int) (schema : Option Schema) (s : Service) (call : Call) : Result :=
  match s.issue now call with
  | (s, .answered r) => ⟨s, .answered r, false⟩
  | (s, .running job) =>
    if job.isAwaiting then
      let (s, progress) := s.deliver now schema job
      ⟨s, progress, true⟩
    else ⟨s, .running job, false⟩

end Service

end Catalog
