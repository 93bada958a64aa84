import Catalog.Proofs.Queryables.Refresh
import Catalog.Proofs.Service.Gate

/-!
# Calls one after the other

A call that comes while nobody else is served finds the lock free. So it waits for nobody but the
schema, and it is answered when the schema has answered or failed. Time passes between two calls and
while the schema is asked.
-/

namespace Catalog

/-- A call that comes while nobody else is served. -/
structure Visit where
  call : Call
  /-- For how many seconds nothing happened before the call. -/
  wait : Nat
  /-- How many seconds the schema takes to answer, if it is asked. -/
  delay : Nat
  /-- What the schema answers, if it is asked. -/
  answer : Option Schema

/-- A service that serves nobody, and the instant of the clock. -/
structure Idle where
  service : Service
  now : Int

/-- What an access is for when it serves a goal. -/
def Goal.purpose : Goal → Purpose
  | .start => .warm
  | .warm => .warm
  | _ => .read

theorem Goal.firstPhase_eq (goal : Goal) : goal.firstPhase = goal.purpose.firstPhase := by
  cases goal with
  | _ => rfl

namespace Call

/-- A call has to reach the cache of a service in this state, for the goal. What cannot be read, a
query without entries and a start of a service that was started do not. -/
inductive Reaches (state : Lifecycle) : Call → Goal → Prop where
  | start (h : ¬(state = .starting ∨ state = .ready)) : Reaches state .start .start
  | warm : Reaches state .warm .warm
  | fields : Reaches state .fields .fields
  | validate (names : List String) : Reaches state (.validate names) (.validate names)
  | filterTree (n : Filter) : Reaches state (.filterTree n) (.compile .filter n)
  | filter {v : Json} {n : Filter} (h : Filter.read v = .ok n) :
    Reaches state (.filter v) (.compile .filter n)
  | query {v : Json} {n : Filter} (h : Query.lower v = .ok (some n)) :
    Reaches state (.query v) (.compile .query n)
  | sort (order : List SortField) : Reaches state (.sort order) (.sort order)

/-- What a call makes of the cache without an access. -/
def change (now : Int) (c : Cache) : Call → Cache
  | .shutdown => c.clear.1
  | .clear => c.clear.1
  | .invalidate => c.invalidate now
  | _ => c

/-- The state of a service behind a call. -/
def stateAfter (state : Lifecycle) : Call → Lifecycle
  | .start => .ready
  | .shutdown => .stopped
  | _ => state

@[simp] theorem enabled_change (now : Int) (c : Cache) (call : Call) :
    (call.change now c).enabled = c.enabled := by
  cases call with
  | invalidate => rw [change, Cache.invalidate]; split <;> rfl
  | _ => rfl

@[simp] theorem timeToLive_change (now : Int) (c : Cache) (call : Call) :
    (call.change now c).timeToLive = c.timeToLive := by
  cases call with
  | invalidate => rw [change, Cache.invalidate]; split <;> rfl
  | _ => rfl

variable {call : Call} {state : Lifecycle} {goal : Goal}

theorem Reaches.change_eq (h : call.Reaches state goal) (now : Int) (c : Cache) :
    call.change now c = c := by
  cases h with
  | _ => rfl

/-- A call reaches the cache for one goal at most. -/
theorem Reaches.unique {other : Goal} (h : call.Reaches state goal)
    (h' : call.Reaches state other) : goal = other := by
  cases h with
  | filter hread =>
    cases h' with
    | filter hread' => rw [Except.ok.inj (hread.symm.trans hread')]
  | query hlower =>
    cases h' with
    | query hlower' => rw [Option.some.inj (Except.ok.inj (hlower.symm.trans hlower'))]
  | _ => cases h'; rfl

end Call

namespace Service

variable {s t u : Service} {now : Int} {call : Call} {goal : Goal}

/-- One service is another one that has measured something. -/
def Measured (s t : Service) : Prop := ∃ m, t = { s with metrics := m }

theorem Measured.refl (s : Service) : s.Measured s := ⟨s.metrics, rfl⟩

theorem Measured.trans (h : s.Measured t) (h' : t.Measured u) : s.Measured u := by
  obtain ⟨m, rfl⟩ := h
  obtain ⟨m', rfl⟩ := h'
  exact ⟨m', rfl⟩

theorem Measured.config_eq (h : s.Measured t) : t.config = s.config := by
  obtain ⟨m, rfl⟩ := h
  rfl

theorem Measured.cache_eq (h : s.Measured t) : t.cache = s.cache := by
  obtain ⟨m, rfl⟩ := h
  rfl

theorem Measured.state_eq (h : s.Measured t) : t.state = s.state := by
  obtain ⟨m, rfl⟩ := h
  rfl

theorem measured_record (s : Service) (e : Event) : s.Measured (s.record e) := ⟨_, rfl⟩

theorem measured_recordOutcome {α : Type} (s : Service) (kind : CompileKind)
    (r : Except CompileError α) : s.Measured (s.recordOutcome kind r) := by
  cases r with
  | error e => exact measured_record s _
  | ok a => exact measured_record s _

theorem measured_conclude {α : Type} (s : Service) (kind : CompileKind)
    (r : Except CompileError α) : s.Measured (s.conclude kind r) :=
  (measured_recordOutcome s kind r).trans (measured_record _ _)

theorem measured_recordScript (s : Service) (kind : CompileKind)
    (r : Except CompileError Patch.Script) : s.Measured (s.recordScript kind r) := by
  cases r with
  | error e => exact measured_recordOutcome s kind (α := Patch.Script) (.error e)
  | ok script => exact (measured_record s _).trans (measured_recordOutcome _ kind (.ok script))

theorem measured_patch (s : Service) (operations : List Patch.Operation) :
    s.Measured (s.patch operations).1 :=
  (measured_recordScript s _ _).trans (measured_record _ _)

theorem measured_merge (s : Service) (patch : Json) : s.Measured (s.merge patch).1 := by
  unfold merge
  cases Patch.ofMerge patch with
  | error e => exact (measured_recordOutcome s _ _).trans (measured_record _ _)
  | ok operations =>
    dsimp only
    have hscript := measured_recordScript s .mergePatch
      (Patch.compile s.config.createOnMerge s.config.scriptLang operations)
    cases hr : Patch.compile s.config.createOnMerge s.config.scriptLang operations with
    | error e =>
      rw [hr] at hscript
      exact (hscript.trans (measured_recordOutcome _ _ _)).trans (measured_record _ _)
    | ok script =>
      rw [hr] at hscript
      exact hscript.trans (measured_record _ _)

theorem measured_check (s : Service) (allowed : Option (List String)) (names : List String) :
    s.Measured (s.check allowed names).1 := by
  unfold check
  cases Filter.gate allowed names with
  | error e => exact measured_record s _
  | ok => exact .refl s

/-- What a service does when it sets out for a goal. -/
def setOut (s : Service) : Goal → Service
  | .start => s.announce .starting
  | _ => s

/-- What a service does when it has come to the end of an access for a goal. -/
def arrive (s : Service) : Goal → Service
  | .start => s.announce .ready
  | _ => s

@[simp] theorem cache_setOut (s : Service) (goal : Goal) : (s.setOut goal).cache = s.cache := by
  cases goal with
  | _ => rfl

@[simp] theorem config_setOut (s : Service) (goal : Goal) :
    (s.setOut goal).config = s.config := by
  cases goal with
  | _ => rfl

@[simp] theorem cache_arrive (s : Service) (goal : Goal) : (s.arrive goal).cache = s.cache := by
  cases goal with
  | _ => rfl

/-- Completing a goal changes the state if it is to start, and is measured. -/
theorem measured_complete (s : Service) (allowed : Option (List String)) (goal : Goal) :
    (s.arrive goal).Measured (s.complete allowed goal).1 := by
  cases goal with
  | start => exact .refl _
  | warm => exact .refl _
  | fields => exact .refl _
  | validate names => exact measured_check s allowed names
  | compile kind filter => exact (measured_check s allowed _).trans (measured_conclude _ _ _)
  | sort fields => exact (measured_check s allowed _).trans (measured_conclude _ _ _)

theorem accept_of_reaches (h : call.Reaches s.state goal) (now : Int) :
    s.accept now call = (s.setOut goal).pursue goal := by
  cases h with
  | start hstate => rw [accept, if_neg hstate]; rfl
  | filter hread => simp only [accept, hread]; rfl
  | query hlower => simp only [accept, hlower]; rfl
  | _ => rfl

/-- The state behind a goal is the state behind the call that set out for it. -/
theorem state_arrive (h : call.Reaches s.state goal) (ht : t.state = (s.setOut goal).state) :
    (t.arrive goal).state = call.stateAfter s.state := by
  cases h with
  | start => rfl
  | _ => exact ht

/-- A call that does not reach the cache is answered at once. A service that is being started stays
in that state when it is started again. -/
theorem accept_of_not_reaches (h : ∀ goal, ¬call.Reaches s.state goal) (now : Int) :
    ∃ t r, s.accept now call = (t, .answered r) ∧ t.config = s.config ∧
      t.cache = call.change now s.cache ∧
      (s.state ≠ .starting → t.state = call.stateAfter s.state) := by
  have hmeasured {t : Service} (hm : s.Measured t) :
      t.config = s.config ∧ t.cache = s.cache ∧ (s.state ≠ .starting → t.state = s.state) :=
    ⟨hm.config_eq, hm.cache_eq, fun _ => hm.state_eq⟩
  cases call with
  | start =>
    have hstate : s.state = .starting ∨ s.state = .ready :=
      Decidable.byContradiction fun hnot => h _ (.start hnot)
    exact ⟨s, .state s.state, by rw [accept, if_pos hstate], rfl, rfl, hstate.resolve_left⟩
  | filter v =>
    cases hread : Filter.read v with
    | ok n => exact absurd (.filter hread) (h _)
    | error e =>
      let r : Except CompileError (Option Clause) := .error e
      exact ⟨s.conclude .filter r, .clause r, by simp only [accept, hread, r],
        hmeasured (measured_conclude s .filter r)⟩
  | query v =>
    cases hlower : Query.lower v with
    | error e =>
      let r : Except CompileError (Option Clause) := .error e
      exact ⟨s.conclude .query r, .clause r, by simp only [accept, hlower, r],
        hmeasured (measured_conclude s .query r)⟩
    | ok lowered =>
      cases lowered with
      | some n => exact absurd (.query hlower) (h _)
      | none =>
        let r : Except CompileError (Option Clause) := .ok none
        exact ⟨s.conclude .query r, .clause r, by simp only [accept, hlower, r],
          hmeasured (measured_conclude s .query r)⟩
  | patch operations => exact ⟨_, _, rfl, hmeasured (measured_patch s operations)⟩
  | merge v => exact ⟨_, _, rfl, hmeasured (measured_merge s v)⟩
  | shutdown => exact ⟨_, _, rfl, rfl, rfl, fun _ => rfl⟩
  | access owner groups isPublic => exact ⟨_, _, rfl, rfl, rfl, fun _ => rfl⟩
  | invalidate => exact ⟨_, _, rfl, rfl, rfl, fun _ => rfl⟩
  | clear => exact ⟨_, _, rfl, rfl, rfl, fun _ => rfl⟩
  | filterTree n => exact absurd (.filterTree n) (h _)
  | sort order => exact absurd (.sort order) (h _)
  | fields => exact absurd .fields (h _)
  | validate names => exact absurd (.validate names) (h _)
  | warm => exact absurd .warm (h _)

/-- Run a call that comes at one instant, against a schema that answers it at another one. -/
def attend (s : Service) (start finish : Int) (schema : Option Schema) (call : Call) : Result :=
  match s.issue start call with
  | (s, .answered r) => ⟨s, .answered r, false⟩
  | (s, .running job) =>
    if job.isAwaiting then
      let (s, progress) := s.deliver finish schema job
      ⟨s, progress, true⟩
    else ⟨s, .running job, false⟩

end Service

namespace Idle

variable {i : Idle} {v : Visit} {goal : Goal}

/-- A service that was just made. -/
def new (config : Config) (now : Int) : Idle := ⟨Service.new config, now⟩

/-- What comes of a visit. -/
def serve (i : Idle) (v : Visit) : Service.Result :=
  i.service.attend (i.now + v.wait) (i.now + v.wait + v.delay) v.answer v.call

/-- A call of a session is a visit for which no time passes. -/
theorem perform_eq_serve (s : Service) (now : Int) (schema : Option Schema) (call : Call) :
    s.perform now schema call = (Idle.mk s now).serve ⟨call, 0, 0, schema⟩ := by
  have hwait : now + ((0 : Nat) : Int) = now := Int.add_zero now
  calc
    s.perform now schema call = s.attend now now schema call := rfl
    _ = (Idle.mk s now).serve ⟨call, 0, 0, schema⟩ := by rw [serve, hwait, hwait]

/-- The service behind a visit. -/
def next (i : Idle) (v : Visit) : Idle := ⟨(i.serve v).service, i.now + v.wait + v.delay⟩

/-- The service behind several visits. -/
def after (i : Idle) (visits : List Visit) : Idle := visits.foldl next i

theorem serve_of_not_reaches (h : ∀ goal, ¬v.call.Reaches i.service.state goal)
    (hsteady : i.service.state ≠ .starting) :
    ∃ t r, i.serve v = ⟨t, .answered r, false⟩ ∧ t.config = i.service.config ∧
      t.cache = v.call.change (i.now + v.wait) i.service.cache ∧
      t.state = v.call.stateAfter i.service.state := by
  obtain ⟨t, r, haccept, hconfig, hcache, hstate⟩ :=
    Service.accept_of_not_reaches h (i.now + v.wait)
  have hserve : i.serve v = ⟨t, .answered r, false⟩ := by
    simp only [serve, Service.attend, Service.issue, haccept]
  exact ⟨t, r, hserve, hconfig, hcache, hstate hsteady⟩

/-- With the cache switched off no call waits for anything. -/
theorem serve_of_disabled (hoff : i.service.cache.enabled = false)
    (h : v.call.Reaches i.service.state goal) :
    i.serve v = ⟨((i.service.setOut goal).complete none goal).1,
      .answered ((i.service.setOut goal).complete none goal).2, false⟩ := by
  have hpursue : (i.service.setOut goal).pursue goal =
      (((i.service.setOut goal).complete none goal).1,
        .answered ((i.service.setOut goal).complete none goal).2) := by
    rw [Service.pursue, Service.cache_setOut, if_neg (by simp [hoff])]
  simp only [serve, Service.attend, Service.issue, Service.accept_of_reaches h, hpursue]

/-- A call that reaches the cache is completed with the fields that it has found there. -/
theorem serve_of_reaches (hon : i.service.cache.enabled = true)
    (hfree : i.service.cache.locked = false) (h : v.call.Reaches i.service.state goal) :
    ∃ t : Service, t.config = i.service.config ∧ t.state = (i.service.setOut goal).state ∧
      t.cache = (if goal.purpose.asks (i.now + v.wait) i.service.cache then
        i.service.cache.receive (i.now + v.wait + v.delay) v.answer else i.service.cache) ∧
      i.serve v = ⟨(t.complete (some (goal.purpose.found t.cache)) goal).1,
        .answered (t.complete (some (goal.purpose.found t.cache)) goal).2,
        goal.purpose.asks (i.now + v.wait) i.service.cache⟩ := by
  let s := i.service.setOut goal
  let start := i.now + v.wait
  have hcache : s.cache = i.service.cache := Service.cache_setOut _ _
  let x := s.proceed start goal.firstPhase
  have hissue : i.service.issue start v.call = Service.pause goal x :=
    Service.issue_eq_pause (by rw [hcache, hon]) (Service.accept_of_reaches h start)
  have hrun : goal.firstPhase.run start s.cache =
      goal.purpose.firstPhase.run start i.service.cache := by rw [goal.firstPhase_eq, hcache]
  cases hasks : goal.purpose.asks start i.service.cache with
  | false =>
    rw [Phase.run_firstPhase_of_not_asks hasks] at hrun
    have hx : x = (x.1, .done (goal.purpose.found x.1.cache)) :=
      Prod.ext rfl (by simp only [x, Service.proceed, hrun])
    refine ⟨x.1, Service.config_setOut _ _, rfl, by simp [x, Service.proceed, hrun], ?_⟩
    rw [hx] at hissue
    simp only [serve, Service.attend, start, hissue, Service.pause]
  | true =>
    -- The schema is asked, and its answer brings the access to its end.
    rw [Phase.run_firstPhase_of_asks hfree hasks] at hrun
    have hx : x = (x.1, .await goal.purpose) :=
      Prod.ext rfl (by simp only [x, Service.proceed, hrun])
    have hlocked : x.1.cache = { i.service.cache with locked := true } := by
      simp only [x, Service.proceed, hrun]
    obtain ⟨events, hanswer⟩ := Phase.run_answer (start + v.delay) hfree v.answer goal.purpose
    let heard := x.1.hear v.answer (.await goal.purpose)
    let y := heard.1.proceed (start + v.delay) heard.2
    have hy : y.1.cache = i.service.cache.receive (start + v.delay) v.answer ∧
        y.2 = .done (goal.purpose.found y.1.cache) := by
      simp only [y, heard, Service.proceed, Service.hear, hlocked, hanswer, and_self]
    have hdeliver : x.1.deliver (start + v.delay) v.answer ⟨.await goal.purpose, goal⟩ =
        Service.pause goal (y.1, .done (goal.purpose.found y.1.cache)) := by
      rw [Service.deliver_eq_pause, ← hy.2]
    refine ⟨y.1, Service.config_setOut _ _, rfl, by rw [hy.1, if_pos rfl], ?_⟩
    rw [hx] at hissue
    simp only [serve, Service.attend, start, hissue, Service.pause, Job.isAwaiting, if_true,
      hdeliver]

/-- What a visit does to a service. -/
structure Served (i : Idle) (v : Visit) : Prop where
  answered : ∃ r, (i.serve v).progress = .answered r
  state_eq : (i.serve v).service.state = v.call.stateAfter i.service.state
  /-- The schema is asked for the calls that reach the cache and find nothing fresh there. -/
  asked_iff : (i.serve v).asked = true ↔ i.service.cache.enabled = true ∧
    ∃ goal, v.call.Reaches i.service.state goal ∧
      goal.purpose.asks (i.now + v.wait) i.service.cache = true
  /-- Nothing but the answer of the schema, or the call itself, changes the cache. -/
  cache_eq : (i.serve v).service.cache = if (i.serve v).asked then
    i.service.cache.receive (i.now + v.wait + v.delay) v.answer
      else v.call.change (i.now + v.wait) i.service.cache

/-- Completing a goal leaves the service as the call does that had it. -/
theorem complete_eq {t : Service} (h : v.call.Reaches i.service.state goal)
    (ht : t.state = (i.service.setOut goal).state) (allowed : Option (List String)) :
    (t.complete allowed goal).1.state = v.call.stateAfter i.service.state ∧
      (t.complete allowed goal).1.cache = t.cache := by
  have hmeasured := Service.measured_complete t allowed goal
  exact ⟨hmeasured.state_eq.trans (Service.state_arrive h ht),
    hmeasured.cache_eq.trans (Service.cache_arrive t goal)⟩

/-- A visit comes to its end, and what it does depends on how fresh the cache is. -/
theorem served (hfree : i.service.cache.locked = false) (hsteady : i.service.state ≠ .starting)
    (v : Visit) : i.Served v := by
  by_cases hreaches : ∃ goal, v.call.Reaches i.service.state goal
  · obtain ⟨goal, h⟩ := hreaches
    cases hon : i.service.cache.enabled with
    | false =>
      have hserve := serve_of_disabled hon h
      obtain ⟨hstate, hcache⟩ := complete_eq (v := v) h rfl none
      constructor
      · exact ⟨_, by rw [hserve]⟩
      · rw [hserve, hstate]
      · simp [hserve, hon]
      · simp only [hserve, hcache, Service.cache_setOut, h.change_eq, Bool.false_eq_true, if_false]
    | true =>
      obtain ⟨t, -, hstate, hcache, hserve⟩ := serve_of_reaches hon hfree h
      obtain ⟨hstate', hcache'⟩ := complete_eq h hstate (some (goal.purpose.found t.cache))
      constructor
      · exact ⟨_, by rw [hserve]⟩
      · rw [hserve, hstate']
      · rw [hserve]
        constructor
        · intro hasks
          exact ⟨hon, goal, h, hasks⟩
        · rintro ⟨-, other, hother, hasks⟩
          rw [h.unique hother, hasks]
      · rw [hserve, h.change_eq]
        exact hcache'.trans hcache
  · rw [not_exists] at hreaches
    obtain ⟨t, r, hserve, -, hcache, hstate⟩ := serve_of_not_reaches hreaches hsteady
    constructor
    · exact ⟨r, by rw [hserve]⟩
    · rw [hserve, hstate]
    · rw [hserve]
      constructor
      · intro hasked
        cases hasked
      · rintro ⟨-, goal, h, -⟩
        exact absurd h (hreaches goal)
    · simp only [hserve, hcache, Bool.false_eq_true, if_false]

end Idle

end Catalog
