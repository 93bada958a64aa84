import Catalog.Proofs.Filter.Gate
import Catalog.Proofs.Queryables.Access
import Catalog.Service.Run

/-!
# Filters of a service

A call that needs the fields reaches the cache in a number of turns. In between other callers change
the service, and the schema may answer. What a call wants is looked at only when it has reached the
fields. So a call that compiles a filter gets the very fields that a call for the fields would have
got in its place, and answers as if the filter were compiled under a gate of these fields.
-/

namespace Catalog

/-- A turn of a call that waits: the service as others have left it, and the answer of the schema if
this is what comes next. -/
structure Turn where
  now : Int
  others : Service
  answer : Option (Option Schema)

namespace Turn

/-- The service in a turn. Its settings never change. -/
def service (t : Turn) (s : Service) : Service := { t.others with config := s.config }

/-- Let a job have a turn. -/
def take (t : Turn) (s : Service) (job : Job) : Service × Progress :=
  match t.answer with
  | some schema => (t.service s).deliver t.now schema job
  | none => (t.service s).advance t.now job

end Turn

/-- The calls that compile a filter. -/
inductive Call.Compiles (n : Filter) : Call → Prop where
  | tree : Compiles n (.filterTree n)
  | json {v : Json} (h : Filter.read v = .ok n) : Compiles n (.filter v)

namespace Service

/-- Let a call have its turns until it is answered. -/
def follow : Service × Progress → List Turn → Service × Progress
  | (s, .running job), t :: turns => follow (t.take s job) turns
  | r, _ => r

/-- What becomes of a call in its turns. -/
def respond (now : Int) (s : Service) (call : Call) (turns : List Turn) : Service × Progress :=
  follow (s.issue now call) turns

/-- Let an access proceed as far as it can, whatever it is for. -/
def proceed (now : Int) (s : Service) (phase : Phase) : Service × Phase :=
  let (cache, events, phase) := phase.run now s.cache
  ({ s with cache := cache, metrics := s.metrics.recordAll events }, phase)

/-- Hand an answer of the schema to an access, whatever it is for. -/
def hear (s : Service) (schema : Option Schema) (phase : Phase) : Service × Phase :=
  let (cache, events, phase) := phase.answer s.cache schema
  ({ s with cache := cache, metrics := s.metrics.recordAll events }, phase)

/-- What an access has come to for a goal. At its end the goal is completed. -/
def pause (goal : Goal) : Service × Phase → Service × Progress
  | (s, .done fields) =>
    let (s, r) := s.complete (some fields) goal
    (s, .answered r)
  | (s, phase) => (s, .running ⟨phase, goal⟩)

variable {s : Service} {now : Int} {goal : Goal}

theorem pause_of_ne {x : Service × Phase} (h : ∀ fields, x.2 ≠ .done fields) (goal : Goal) :
    pause goal x = (x.1, .running ⟨x.2, goal⟩) := by
  obtain ⟨s, phase⟩ := x
  cases phase with
  | done fields => exact absurd rfl (h fields)
  | _ => rfl

theorem advance_eq_pause (now : Int) (s : Service) (job : Job) :
    s.advance now job = pause job.goal (s.proceed now job.phase) := by
  obtain ⟨phase, goal⟩ := job
  unfold advance proceed
  dsimp only
  generalize phase.run now s.cache = r
  obtain ⟨cache, events, phase⟩ := r
  cases phase <;> rfl

theorem deliver_eq_pause (now : Int) (s : Service) (schema : Option Schema) (job : Job) :
    s.deliver now schema job =
      pause job.goal ((s.hear schema job.phase).1.proceed now (s.hear schema job.phase).2) :=
  advance_eq_pause now _ ⟨_, job.goal⟩

/-- A call sets out with the first phase of its goal. -/
theorem issue_eq_pause {t : Service} {call : Call} (henabled : t.cache.enabled = true)
    (haccept : s.accept now call = t.pursue goal) :
    s.issue now call = pause goal (t.proceed now goal.firstPhase) := by
  rw [issue, haccept, pursue, if_pos henabled]
  exact advance_eq_pause now t ⟨goal.firstPhase, goal⟩

theorem accept_of_compiles {n : Filter} {call : Call} (h : call.Compiles n) :
    s.accept now call = s.pursue (.compile .filter n) := by
  cases h with
  | tree => rfl
  | json h => simp only [accept, h]

/-- A turn goes the same way for every goal, and leaves the settings as they are. -/
theorem take_eq_pause (t : Turn) (s : Service) (phase : Phase) :
    ∃ x : Service × Phase, x.1.config = s.config ∧
      ∀ goal, t.take s ⟨phase, goal⟩ = pause goal x := by
  cases hanswer : t.answer with
  | none =>
    refine ⟨(t.service s).proceed t.now phase, rfl, fun goal => ?_⟩
    simp only [Turn.take, hanswer, advance_eq_pause]
  | some schema =>
    let heard := (t.service s).hear schema phase
    refine ⟨heard.1.proceed t.now heard.2, rfl, fun goal => ?_⟩
    simp only [Turn.take, hanswer, deliver_eq_pause, heard]

/-- So do all turns of a call. -/
theorem follow_pause (x : Service × Phase) (turns : List Turn) :
    ∃ y : Service × Phase, y.1.config = x.1.config ∧
      ∀ goal, follow (pause goal x) turns = pause goal y := by
  induction turns generalizing x with
  | nil =>
    refine ⟨x, rfl, fun goal => ?_⟩
    generalize pause goal x = r
    obtain ⟨s, answered | running⟩ := r
    · rfl
    · rfl
  | cons t turns ih =>
    by_cases hdone : ∃ fields, x.2 = .done fields
    · obtain ⟨s, phase⟩ := x
      obtain ⟨fields, rfl⟩ := hdone
      exact ⟨(s, .done fields), rfl, fun goal => rfl⟩
    · obtain ⟨y, hy, htake⟩ := take_eq_pause t x.1 x.2
      obtain ⟨z, hz, hfollow⟩ := ih y
      refine ⟨z, hz.trans hy, fun goal => ?_⟩
      rw [pause_of_ne (fun fields h => hdone ⟨fields, h⟩), follow, htake, hfollow]

@[simp] theorem cache_conclude {α : Type} (s : Service) (kind : CompileKind)
    (r : Except CompileError α) : (s.conclude kind r).cache = s.cache := by
  cases r with
  | error => rfl
  | ok => rfl

theorem filterOptions_eq {t : Service} (h : t.config = s.config) :
    t.filterOptions = ⟨t.cache.mapping, s.config.caseInsensitiveLike⟩ := by
  rw [filterOptions, h]

/-- Compiling a filter for a call is compiling it under a gate of the fields. The cache stays as it
is. -/
theorem complete_compile (s : Service) (allowed : List String) (kind : CompileKind) (n : Filter) :
    (s.complete (some allowed) (.compile kind n)).2 =
        .clause ((n.compileGated (some allowed) s.filterOptions).map some) ∧
      (s.complete (some allowed) (.compile kind n)).1.cache = s.cache := by
  unfold complete check Filter.compileGated
  dsimp only
  generalize Filter.gate (some allowed) n.properties = gated
  cases gated with
  | error e => exact ⟨rfl, by simp [record]⟩
  | ok => exact ⟨rfl, by simp⟩

/-- When the lock is free, a call whose question is answered at once comes to its end, at the same
fields for every goal that begins by looking at them. -/
theorem perform_of_free (hfree : s.cache.locked = false) (henabled : s.cache.enabled = true)
    (now : Int) (schema : Option Schema) :
    ∃ (x : Service) (fields : List String) (asked : Bool), x.config = s.config ∧
      ∀ goal call, goal.firstPhase = .look → s.accept now call = s.pursue goal →
        s.perform now schema call = ⟨(x.complete (some fields) goal).1,
          .answered (x.complete (some fields) goal).2, asked⟩ := by
  let x := s.proceed now .look
  have hissue (goal : Goal) (call : Call) (hfirst : goal.firstPhase = .look)
      (haccept : s.accept now call = s.pursue goal) : s.issue now call = pause goal x := by
    rw [issue_eq_pause henabled haccept, hfirst]
  rcases Phase.arrives_look now hfree with hphase | ⟨fields, hphase⟩
  · -- The schema is asked, and its answer brings the access to its end.
    let heard := x.1.hear schema (.await .read)
    let y := heard.1.proceed now heard.2
    obtain ⟨fields, hend⟩ := Phase.ends_answer now x.1.cache schema .read
    refine ⟨y.1, fields, true, rfl, fun goal call hfirst haccept => ?_⟩
    have hx : x = (x.1, .await .read) := Prod.ext rfl hphase
    have hy : y = (y.1, .done fields) := Prod.ext rfl hend
    have hdeliver : x.1.deliver now schema ⟨.await .read, goal⟩ = pause goal y :=
      deliver_eq_pause now x.1 schema ⟨.await .read, goal⟩
    rw [perform, hissue goal call hfirst haccept, hx]
    simp only [pause, Job.isAwaiting, if_true, hdeliver]
    rw [hy]
  · refine ⟨x.1, fields, false, rfl, fun goal call hfirst haccept => ?_⟩
    have hx : x = (x.1, .done fields) := Prod.ext rfl hphase
    rw [perform, hissue goal call hfirst haccept, hx]
    rfl

/-- A gate refuses a filter with all names that are not allowed, whatever else is wrong with it, and
otherwise compiles it as if there were no gate. A service that validates answers every call that
compiles a filter just so: the call is answered when a call for the fields in its place is, and
then the filter is compiled under a gate of the fields that this call would tell, with the mapping
that it would leave. With the lock free and a schema that answers or fails at once, both calls are
answered. -/
theorem clause_eq_compileGated (n : Filter) :
    (∀ (allowed : List String) (o : FilterOptions),
      (∀ name, n.Misnames allowed name →
        ∃ fields, n.compileGated (some allowed) o = .error (.undefinedFields fields) ∧
          fields.Pairwise (· < ·) ∧ ∀ name, name ∈ fields ↔ n.Misnames allowed name) ∧
      ((∀ name, ¬n.Misnames allowed name) → n.compileGated (some allowed) o = n.compile o)) ∧
    ∀ (s : Service) (now : Int) (call : Call), s.cache.enabled = true → call.Compiles n →
      (∀ turns,
        (∃ (known compiled : Service) (allowed : List String),
          s.respond now .fields turns = (known, .answered (.fields allowed)) ∧
          s.respond now call turns = (compiled, .answered (.clause ((n.compileGated (some allowed)
            ⟨known.cache.mapping, s.config.caseInsensitiveLike⟩).map some))) ∧
          compiled.cache = known.cache) ∨
        ∃ (waiting : Service) (phase : Phase),
          s.respond now .fields turns = (waiting, .running ⟨phase, .fields⟩) ∧
          s.respond now call turns = (waiting, .running ⟨phase, .compile .filter n⟩)) ∧
      (s.cache.locked = false → ∀ schema, ∃ allowed,
        (s.perform now schema .fields).progress = .answered (.fields allowed) ∧
        (s.perform now schema call).progress = .answered (.clause ((n.compileGated (some allowed)
          ⟨(s.perform now schema .fields).service.cache.mapping,
            s.config.caseInsensitiveLike⟩).map some))) := by
  refine ⟨fun allowed o => ⟨fun name h => Filter.compileGated_of_misnames h,
    Filter.compileGated_of_forall⟩, fun s now call henabled hcall => ⟨fun turns => ?_, ?_⟩⟩
  · obtain ⟨x, hconfig, hfollow⟩ := follow_pause (s.proceed now .look) turns
    have hfields : s.respond now .fields turns = pause .fields x := by
      rw [respond, issue_eq_pause henabled rfl, ← hfollow]
      rfl
    have hclause : s.respond now call turns = pause (.compile .filter n) x := by
      rw [respond, issue_eq_pause henabled (accept_of_compiles hcall), ← hfollow]
      rfl
    by_cases hdone : ∃ fields, x.2 = .done fields
    · obtain ⟨known, phase⟩ := x
      obtain ⟨allowed, rfl⟩ := hdone
      have hsettings : known.config = s.config := hconfig
      obtain ⟨hresponse, hcache⟩ := complete_compile known allowed .filter n
      rw [filterOptions_eq hsettings] at hresponse
      exact .inl ⟨known, _, allowed, hfields, hclause.trans (by rw [← hresponse]; rfl), hcache⟩
    · have hwaits := pause_of_ne fun fields h => hdone ⟨fields, h⟩
      exact .inr ⟨x.1, x.2, hfields.trans (hwaits _), hclause.trans (hwaits _)⟩
  · intro hfree schema
    obtain ⟨known, allowed, asked, hconfig, hperform⟩ := perform_of_free hfree henabled now schema
    obtain ⟨hresponse, -⟩ := complete_compile known allowed .filter n
    rw [filterOptions_eq hconfig] at hresponse
    have hfields := hperform .fields .fields rfl rfl
    have hclause := hperform (.compile .filter n) call rfl (accept_of_compiles hcall)
    refine ⟨allowed, by rw [hfields]; rfl, ?_⟩
    rw [hclause, hfields, hresponse]
    rfl

theorem clause_eq_compileGated_two_faults :
    ∃ fields, ((new { Config.standard with validateFields := true }).perform 0
        (some [("a", "properties.a")]) (.filterTree
          (.connective .all [.like "b" "\\", .like "properties.a" "x"]))).progress =
        .answered (.clause (.error (.undefinedFields fields))) ∧
      fields.Pairwise (· < ·) ∧ (∀ name, name ∈ fields ↔ name = "b") ∧
      ∀ o, Filter.compileGated (some ["a", "b"]) o
          (.connective .all [.like "b" "\\", .like "properties.a" "x"]) =
        .error (.escapeSequence "\\" 0) := by
  let tree : Filter := .connective .all [.like "b" "\\", .like "properties.a" "x"]
  let s : Service := new { Config.standard with validateFields := true }
  obtain ⟨hgate, hall⟩ := clause_eq_compileGated tree
  obtain ⟨-, hfree⟩ := hall s 0 (.filterTree tree) rfl .tree
  obtain ⟨allowed, hfields, hclause⟩ := hfree rfl (some [("a", "properties.a")])
  have hasked : (s.perform 0 (some [("a", "properties.a")]) .fields).progress =
      .answered (.fields ["a"]) := by
    simp [s, perform, issue, accept, pursue, new, Config.standard, Cache.new, advance, Phase.run,
      Phase.step?, Goal.firstPhase, Snapshot.empty, Job.isAwaiting, deliver, Phase.answer,
      Phase.afterAnswer, complete]
  obtain rfl : allowed = ["a"] := by simpa [hasked, eq_comm] using hfields
  obtain ⟨fields, herror, hsorted, hmem⟩ := (hgate ["a"] _).1 "b" (by decide)
  have hleaves : tree.leafProperties = ["b", "properties.a"] := rfl
  have hmisnames (allowed : List String) (name : String) : tree.Misnames allowed name →
      name = "b" ∨ name = "properties.a" := by
    intro h
    simpa [hleaves] using (Filter.misnames_iff.1 h).1
  refine ⟨fields, hclause.trans (by rw [herror]; rfl), hsorted, fun name => ?_, fun o => ?_⟩
  · rw [hmem]
    constructor
    · intro h
      exact (hmisnames _ _ h).resolve_right (by rintro rfl; exact absurd h (by decide))
    · rintro rfl
      decide
  · refine ((hgate ["a", "b"] o).2 fun name h => ?_).trans rfl
    rcases hmisnames _ _ h with rfl | rfl
    · exact absurd h (by decide)
    · exact absurd h (by decide)

end Service

end Catalog
