import Catalog.Proofs.Service.Visits
import Mathlib.Logic.Relation

/-!
# Calls that overlap

Calls come while others are on their way. In each turn one of them takes an atomic step, is handed
the answer of the schema or is given up, or else time passes. A call that goes on as far as it can
before anybody else has a turn does so by turns of this kind, so nothing that a service does is left
out.
-/

namespace Catalog

/-- A call with its answer. -/
structure Exchange where
  call : Call
  response : Response

/-- A service and the calls to it. -/
structure Traffic where
  service : Service
  /-- The instant of the clock. -/
  now : Int
  /-- The calls that are on their way, each with its job. -/
  waiting : List (Call × Job)
  /-- The calls that were answered, in the order of their answers. -/
  answered : List Exchange

namespace Service

variable {s : Service} {now : Int} {phase : Phase} {x : Service × Phase}

/-- Let an access take one step, whatever it is for. -/
def step? (now : Int) (s : Service) (phase : Phase) : Option (Service × Phase) :=
  (phase.step? now s.cache).map fun (cache, events, phase) =>
    ({ s with cache := cache, metrics := s.metrics.recordAll events }, phase)

theorem step?_eq_some (h : s.step? now phase = some x) :
    ∃ cache events, phase.step? now s.cache = some (cache, events, x.2) ∧
      x.1 = { s with cache := cache, metrics := s.metrics.recordAll events } := by
  obtain ⟨⟨cache, events, next⟩, hstep, rfl⟩ := Option.map_eq_some_iff.1 h
  exact ⟨cache, events, hstep, rfl⟩

/-- A call that is not answered at once has set out to reach the cache. -/
theorem accept_eq_running {t : Service} {call : Call} {job : Job}
    (h : s.accept now call = (t, .running job)) :
    call.Reaches s.state job.goal ∧ t = s.setOut job.goal ∧ job.phase = job.goal.firstPhase := by
  by_cases hreaches : ∃ goal, call.Reaches s.state goal
  · obtain ⟨goal, hgoal⟩ := hreaches
    rw [accept_of_reaches hgoal, pursue] at h
    split at h
    · cases h
      exact ⟨hgoal, rfl, rfl⟩
    · cases h
  · obtain ⟨t', r, haccept, -⟩ := accept_of_not_reaches (not_exists.1 hreaches) now
    rw [haccept] at h
    cases h

theorem proceed_of_waits (h : s.step? now phase = none) : s.proceed now phase = (s, phase) := by
  simp only [proceed, Phase.run_of_waits (Option.map_eq_none_iff.1 h)]
  rfl

theorem proceed_of_step? (h : s.step? now phase = some x) :
    s.proceed now phase = x.1.proceed now x.2 := by
  obtain ⟨next, p⟩ := x
  obtain ⟨cache, events, hstep, rfl⟩ := step?_eq_some h
  simp only [proceed, Phase.run_of_step? hstep, Metrics.recordAll, List.foldl_append]

end Service

namespace Traffic

/-- A service that was just made, before any call. -/
def new (config : Config) (now : Int) : Traffic := ⟨Service.new config, now, [], []⟩

/-- Take down what has come of a call. -/
def put (t : Traffic) (call : Call) : Service × Progress → Traffic
  | (s, .answered r) => { t with service := s, answered := t.answered ++ [⟨call, r⟩] }
  | (s, .running job) => { t with service := s, waiting := t.waiting ++ [(call, job)] }

/-- One turn. -/
inductive Turns : Traffic → Traffic → Prop where
  /-- A call comes. -/
  | call (t : Traffic) (call : Call) : Turns t (t.put call (t.service.accept t.now call))
  /-- A call on its way takes its next step. -/
  | step {t : Traffic} {before after : List (Call × Job)} {call : Call} {job : Job}
    {x : Service × Phase} (hwaiting : t.waiting = before ++ (call, job) :: after)
    (hstep : t.service.step? t.now job.phase = some x) :
    Turns t ({ t with waiting := before ++ after }.put call (Service.pause job.goal x))
  /-- The schema answers to a call that waits for it, or fails to. -/
  | answer {t : Traffic} {before after : List (Call × Job)} {call : Call} {job : Job}
    (hwaiting : t.waiting = before ++ (call, job) :: after) (hawaits : job.isAwaiting = true)
    (schema : Option Schema) :
    Turns t ({ t with waiting := before ++ after }.put call
      (Service.pause job.goal (t.service.hear schema job.phase)))
  /-- A call that waits for the lock is given up. -/
  | abandon {t : Traffic} {before after : List (Call × Job)} {call : Call} {job : Job}
    {purpose : Purpose} (hwaiting : t.waiting = before ++ (call, job) :: after)
    (hqueue : job.phase = .queue purpose) :
    Turns t { t with service := t.service.abandon job, waiting := before ++ after }
  /-- Time passes. -/
  | pass (t : Traffic) (seconds : Nat) : Turns t { t with now := t.now + seconds }

/-- Some number of turns. -/
abbrev Runs : Traffic → Traffic → Prop := Relation.ReflTransGen Turns

variable {t : Traffic} {before after : List (Call × Job)} {call : Call} {job : Job}

theorem put_withService (t : Traffic) (s : Service) (call : Call) (r : Service × Progress) :
    ({ t with service := s } : Traffic).put call r = t.put call r := by
  obtain ⟨s', answered | running⟩ := r
  · rfl
  · rfl

/-- An access that goes on as far as it can takes one step after the other. -/
theorem runs_proceed (t : Traffic) (call : Call) (goal : Goal) (x : Service × Phase) :
    (t.put call (Service.pause goal x)).Runs
      (t.put call (Service.pause goal (x.1.proceed t.now x.2))) := by
  induction hrank : x.2.rank using Nat.strongRecOn generalizing x with
  | ind rank ih =>
    cases hstep : x.1.step? t.now x.2 with
    | none =>
      rw [Service.proceed_of_waits hstep]
    | some y =>
      obtain ⟨cache, events, hphase, -⟩ := Service.step?_eq_some hstep
      have hruns := ih y.2.rank (hrank ▸ Phase.rank_step? hphase) y rfl
      rw [Service.proceed_of_step? hstep]
      refine .head ?_ hruns
      have hpause : Service.pause goal x = (x.1, .running ⟨x.2, goal⟩) :=
        Service.pause_of_ne (fun fields hdone => by simp [hdone, Phase.step?] at hphase) goal
      let t' : Traffic :=
        { t with service := x.1, waiting := t.waiting ++ [(call, ⟨x.2, goal⟩)] }
      have hturn := Turns.step (t := t') rfl hstep
      rw [List.append_nil] at hturn
      rw [hpause]
      exact (put_withService t x.1 call (Service.pause goal y)) ▸ hturn

/-- A call that comes goes on as far as it can. -/
theorem runs_issue (t : Traffic) (call : Call) :
    t.Runs (t.put call (t.service.issue t.now call)) := by
  refine .head (.call t call) ?_
  cases haccept : t.service.accept t.now call with
  | mk s progress =>
    cases progress with
    | answered r =>
      rw [Service.issue, haccept]
    | running job =>
      obtain ⟨-, -, hphase⟩ := Service.accept_eq_running haccept
      have hwaits (fields : List String) : job.phase ≠ .done fields := by
        rw [hphase, job.goal.firstPhase_eq]
        cases job.goal.purpose with
        | _ => exact Phase.noConfusion
      have hruns := runs_proceed t call job.goal (s, job.phase)
      rw [Service.pause_of_ne hwaits] at hruns
      rw [Service.issue, haccept]
      simp only [Service.advance_eq_pause]
      exact hruns

/-- A call that is handed the answer of the schema goes on as far as it can. -/
theorem runs_deliver (hwaiting : t.waiting = before ++ (call, job) :: after)
    (hawaits : job.isAwaiting = true) (schema : Option Schema) :
    t.Runs ({ t with waiting := before ++ after }.put call
      (t.service.deliver t.now schema job)) := by
  rw [Service.deliver_eq_pause]
  exact .head (.answer hwaiting hawaits schema) (runs_proceed _ call job.goal _)

end Traffic

end Catalog
