import Catalog.Proofs.Queryables.Collapse
import Catalog.Proofs.Service.Traffic

/-!
# The crowd behind the calls

The calls that are on their way to a service are callers who share its cache, and with each turn of
the calls these callers move, or nothing happens that bears on the cache. So whatever holds of every
crowd holds of the calls to a service.
-/

namespace Catalog

/-- A call that does not reach the cache leaves it alone, or marks the fields as stale, or forgets
them. -/
theorem Call.change_eq_or (now : Int) (c : Cache) (call : Call) :
    call.change now c = c ∨ call.change now c = c.invalidate now ∨
      call.change now c = c.clear.1 := by
  cases call with
  | invalidate => exact .inr (.inl rfl)
  | shutdown => exact .inr (.inr rfl)
  | clear => exact .inr (.inr rfl)
  | _ => exact .inl rfl

theorem Job.isAwaiting_eq (job : Job) : job.isAwaiting = job.phase.isAwaiting := by
  obtain ⟨phase, goal⟩ := job
  cases phase with
  | _ => rfl

theorem Service.cache_complete (s : Service) (allowed : Option (List String)) (goal : Goal) :
    (s.complete allowed goal).1.cache = s.cache :=
  (s.measured_complete allowed goal).cache_eq.trans (s.cache_arrive goal)

theorem Service.cache_abandon (s : Service) (job : Job) : (s.abandon job).cache = s.cache := by
  unfold abandon
  split <;> rfl

namespace Traffic

variable {t u : Traffic} {g : Crowd} {call : Call}

/-- A call on its way, as far as the cache is concerned. -/
def caller (x : Call × Job) : Caller := ⟨x.2.goal.purpose, x.2.phase⟩

/-- The calls on their way are the callers of a crowd. -/
structure ShownBy (t : Traffic) (g : Crowd) : Prop where
  cache_eq : g.cache = t.service.cache
  now_eq : g.now = t.now
  waiting_eq : g.waiting = t.waiting.map caller

theorem ShownBy.put_pause {s : Service} {phase : Phase} {goal : Goal}
    (hcache : g.cache = s.cache) (hnow : g.now = t.now)
    (hwaiting : g.waiting = t.waiting.map caller) :
    (t.put call (Service.pause goal (s, phase))).ShownBy (g.put goal.purpose phase) := by
  cases phase with
  | done fields => exact ⟨hcache.trans (Service.cache_complete ..).symm, hnow, hwaiting⟩
  | _ =>
    refine ⟨hcache, hnow, ?_⟩
    simp [Crowd.put, hwaiting, Traffic.put, Service.pause, caller]

/-- A call that comes is somebody who comes, or changes the cache at once. -/
theorem ShownBy.accept (h : t.ShownBy g) (call : Call) :
    ∃ g', g.Runs g' ∧ (t.put call (t.service.accept t.now call)).ShownBy g' := by
  by_cases hreaches : ∃ goal, call.Reaches t.service.state goal
  · obtain ⟨goal, hgoal⟩ := hreaches
    refine ⟨_, .single (.come g goal.purpose), ?_⟩
    rw [Service.accept_of_reaches hgoal, Service.pursue, Service.cache_setOut, h.cache_eq]
    have hcache : g.cache = (t.service.setOut goal).cache := by
      rw [Service.cache_setOut, h.cache_eq]
    cases t.service.cache.enabled with
    | true =>
      rw [if_pos rfl, if_pos rfl, ← goal.firstPhase_eq]
      have hpause : Service.pause goal (t.service.setOut goal, goal.firstPhase) =
          (t.service.setOut goal, .running ⟨goal.firstPhase, goal⟩) := by
        refine Service.pause_of_ne (fun fields => ?_) goal
        cases goal with
        | _ => exact Phase.noConfusion
      rw [← hpause]
      exact .put_pause hcache h.now_eq h.waiting_eq
    | false => exact ⟨hcache.trans (Service.cache_complete ..).symm, h.now_eq, h.waiting_eq⟩
  · obtain ⟨s, r, haccept, -, hcache, -⟩ :=
      Service.accept_of_not_reaches (not_exists.1 hreaches) t.now
    rw [haccept]
    rw [← h.cache_eq, ← h.now_eq] at hcache
    -- Marking and forgetting take no lock, so they are moves of their own.
    rcases call.change_eq_or g.now g.cache with hsame | hmark | hforget
    · exact ⟨g, .refl, (hcache.trans hsame).symm, h.now_eq, h.waiting_eq⟩
    · exact ⟨_, .single (.mark g), (hcache.trans hmark).symm, h.now_eq, h.waiting_eq⟩
    · exact ⟨_, .single (.forget g), (hcache.trans hforget).symm, h.now_eq, h.waiting_eq⟩

/-- In each turn the callers move. -/
theorem ShownBy.turns (h : t.ShownBy g) (hturn : t.Turns u) : ∃ g', g.Runs g' ∧ u.ShownBy g' := by
  have hsplit {before after : List (Call × Job)} {x : Call × Job}
      (hwaiting : t.waiting = before ++ x :: after) :
      g.waiting = before.map caller ++ caller x :: after.map caller := by
    rw [h.waiting_eq, hwaiting, List.map_append, List.map_cons]
  cases hturn with
  | call call => exact h.accept call
  | @step before after call job x hwaiting hstep =>
    obtain ⟨c, events, hphase, hx⟩ := Service.step?_eq_some hstep
    obtain ⟨s, phase⟩ := x
    rw [← h.cache_eq, ← h.now_eq] at hphase
    refine ⟨_, .single (.step _ _ (hsplit hwaiting) hphase), ?_⟩
    exact .put_pause (congrArg Service.cache hx).symm h.now_eq List.map_append.symm
  | @answer before after call job hwaiting hawaits schema =>
    have hphase : ∃ purpose, job.phase = .await purpose := by
      obtain ⟨phase, goal⟩ := job
      cases phase with
      | await purpose => exact ⟨purpose, rfl⟩
      | _ => cases hawaits
    obtain ⟨purpose, hphase⟩ := hphase
    refine ⟨_, .single (.answer _ _ (hsplit hwaiting) hphase schema), ?_⟩
    rw [Service.hear, ← h.cache_eq]
    exact .put_pause rfl h.now_eq List.map_append.symm
  | @abandon before after call job purpose hwaiting hqueue =>
    refine ⟨_, .single (.leave _ _ (hsplit hwaiting)), ?_, h.now_eq, List.map_append.symm⟩
    rw [Service.cache_abandon, ← h.cache_eq, caller, hqueue]
    simp [Phase.holds]
  | pass seconds => exact ⟨_, .single (.pass g seconds), h.cache_eq, by rw [h.now_eq], h.waiting_eq⟩

/-- The calls to a service are a crowd that shares its cache. -/
theorem exists_shownBy_of_runs {config : Config} {now : Int} (h : (new config now).Runs t) :
    ∃ g, (Crowd.new config.validateFields config.timeToLive now).Runs g ∧ t.ShownBy g := by
  induction h with
  | refl => exact ⟨_, .refl, rfl, rfl, rfl⟩
  | tail _ hturn ih =>
    obtain ⟨g, hruns, hshown⟩ := ih
    obtain ⟨g', hruns', hshown'⟩ := hshown.turns hturn
    exact ⟨g', hruns.trans hruns', hshown'⟩

/-- However the calls overlap, not more than one of them waits for the schema. -/
theorem countP_isAwaiting_le_one {config : Config} {now : Int} (h : (new config now).Runs t) :
    t.waiting.countP (·.2.isAwaiting) ≤ 1 := by
  obtain ⟨g, hruns, hshown⟩ := exists_shownBy_of_runs h
  have hsound := (Crowd.sound_new ..).runs hruns
  refine Nat.le_trans ?_ hsound.holders_le_one
  rw [hshown.waiting_eq, List.countP_map]
  refine List.countP_mono_left fun x _ hawaiting => ?_
  rw [Job.isAwaiting_eq] at hawaiting
  exact Phase.holds_of_isRefreshing (Phase.isRefreshing_of_isAwaiting hawaiting)

end Traffic

end Catalog
