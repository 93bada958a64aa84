import Catalog.Digest.Sha256
import Catalog.Filter.Compile
import Catalog.Filter.Query
import Catalog.Filter.Reader
import Catalog.Patch.Script
import Catalog.Queryables.Phase
import Catalog.Service.Basic
import Catalog.Sort

/-!
# Calls of the service

A call either is answered at once or has to reach the cache first. In the second case it becomes a
job: the phase of its access and the goal that is left when the access has ended. When validation
is switched off no call reaches the cache. Each compilation counts its outcome and takes one sample
of its duration, the latter also when it is abandoned while it waits.
-/

namespace Catalog

/-- A call. -/
inductive Call where
  | start
  | shutdown
  | filter (filter : Json)
  | filterTree (filter : Filter)
  | query (query : Json)
  | sort (fields : List SortField)
  | patch (operations : List Patch.Operation)
  | merge (patch : Json)
  | access (owner : Option String) (groups : List String) (isPublic : Bool)
  | fields
  | validate (names : List String)
  | warm
  | invalidate
  | clear

/-- The answer to a call. -/
inductive Response where
  | done
  | state (state : Lifecycle)
  | fields (names : List String)
  | checked (result : Except CompileError Unit)
  /-- A query without entries has no clause. -/
  | clause (result : Except CompileError (Option Clause))
  | order (result : Except CompileError (List (String × Direction)))
  | script (result : Except CompileError Patch.Script)
  | bits (result : Except BitstringError Bitstring)

/-- What is left to do when the cache has been reached. -/
inductive Goal where
  | start
  | warm
  | fields
  | validate (names : List String)
  | compile (kind : CompileKind) (filter : Filter)
  | sort (fields : List SortField)

/-- A call on its way through the cache. -/
structure Job where
  phase : Phase
  goal : Goal

/-- A call that was answered, or is still on its way. -/
inductive Progress where
  | answered (response : Response)
  | running (job : Job)

/-- The compilation whose duration is measured. -/
def Goal.kind? : Goal → Option CompileKind
  | .compile kind _ => some kind
  | .sort _ => some .sort
  | _ => none

/-- The first phase of an access for a goal. -/
def Goal.firstPhase : Goal → Phase
  | .start => .queue .warm
  | .warm => .queue .warm
  | _ => .look

namespace Service

/-- Count the outcome of a compilation and take the sample of its duration. -/
def conclude {α : Type} (s : Service) (kind : CompileKind) (r : Except CompileError α) :
    Service :=
  (s.recordOutcome kind r).record (.latency kind.name)

/-- How filters are compiled. -/
def filterOptions (s : Service) : FilterOptions where
  mapping := s.cache.mapping
  caseInsensitive := s.config.caseInsensitiveLike

/-- Check names against the fields of the cache, if it is switched on. Refused names are counted as
often as they were given. -/
def check (s : Service) (allowed : Option (List String)) (names : List String) :
    Service × Except CompileError Unit :=
  match Filter.gate allowed names with
  | .ok () => (s, .ok ())
  | .error e => (s.record (.rejections (Filter.undefinedNames allowed names).length), .error e)

/-- Finish a goal with the fields of the cache, if it is switched on. -/
def complete (s : Service) (allowed : Option (List String)) : Goal → Service × Response
  | .start =>
    let s := s.announce .ready
    (s, .state s.state)
  | .warm => (s, .done)
  | .fields => (s, .fields (allowed.getD []))
  | .validate names =>
    let (s, r) := s.check allowed names
    (s, .checked r)
  | .compile kind filter =>
    let (s, checked) := s.check allowed filter.properties
    let r := do
      checked
      filter.compile s.filterOptions
    (s.conclude kind r, .clause (r.map some))
  | .sort fields =>
    let (s, checked) := s.check allowed (fields.map SortField.field)
    let r := do
      checked
      compileSort s.cache.mapping fields
    (s.conclude .sort r, .order r)

/-- Set out for a goal. -/
def pursue (s : Service) (goal : Goal) : Service × Progress :=
  if s.cache.enabled then (s, .running ⟨goal.firstPhase, goal⟩)
  else
    let (s, r) := s.complete none goal
    (s, .answered r)

/-- Count the statements and the outcome of a script. -/
def recordScript (s : Service) (kind : CompileKind) (r : Except CompileError Patch.Script) :
    Service :=
  match r with
  | .ok script => (s.record (.script script.emitted script.kept)).recordOutcome kind r
  | .error _ => s.recordOutcome kind r

/-- Compile a patch. -/
def patch (s : Service) (operations : List Patch.Operation) :
    Service × Except CompileError Patch.Script :=
  let r := Patch.compile false s.config.scriptLang operations
  ((s.recordScript .patch r).record (.latency CompileKind.patch.name), r)

/-- Compile a merge patch. A refusal of its operations is counted with the script and once more with
the call. -/
def merge (s : Service) (patch : Json) : Service × Except CompileError Patch.Script :=
  let timed (s : Service) := s.record (.latency CompileKind.mergePatch.name)
  match Patch.ofMerge patch with
  | .error e => let r : Except CompileError Patch.Script := .error e
    (timed (s.recordOutcome .mergePatch r), r)
  | .ok operations =>
    let r := Patch.compile s.config.createOnMerge s.config.scriptLang operations
    let counted := s.recordScript .mergePatch r
    match r with
    | .ok _ => (timed counted, r)
    | .error _ => (timed (counted.recordOutcome .mergePatch r), r)

/-- Take a call up. -/
def accept (now : Int) (s : Service) : Call → Service × Progress
  | .start =>
    if s.state = .starting ∨ s.state = .ready then (s, .answered (.state s.state))
    else (s.announce .starting).pursue .start
  | .shutdown =>
    let s := (s.announce .shuttingDown).clear.announce .stopped
    (s, .answered (.state s.state))
  | .filter v =>
    match Filter.read v with
    | .ok filter => s.pursue (.compile .filter filter)
    | .error e =>
      let r : Except CompileError (Option Clause) := .error e
      (s.conclude .filter r, .answered (.clause r))
  | .filterTree filter => s.pursue (.compile .filter filter)
  | .query v =>
    match Query.lower v with
    | .ok (some filter) => s.pursue (.compile .query filter)
    | .ok none =>
      let r : Except CompileError (Option Clause) := .ok none
      (s.conclude .query r, .answered (.clause r))
    | .error e =>
      let r : Except CompileError (Option Clause) := .error e
      (s.conclude .query r, .answered (.clause r))
  | .sort fields => s.pursue (.sort fields)
  | .patch operations =>
    let (s, r) := s.patch operations
    (s, .answered (.script r))
  | .merge v =>
    let (s, r) := s.merge v
    (s, .answered (.script r))
  | .access owner groups isPublic =>
    (s, .answered (.bits
      (Bitstring.encode Sha256.leadingWord s.config.bitstringSize owner groups isPublic)))
  | .fields => s.pursue .fields
  | .validate names => s.pursue (.validate names)
  | .warm => s.pursue .warm
  | .invalidate => (s.invalidate now, .answered .done)
  | .clear => (s.clear, .answered .done)

end Service

end Catalog
