import Catalog.Proofs.Service.History
import Mathlib.Data.List.Induction

/-!
# The cache and the mapping agree

The names of the snapshot and the paths of the mapping are kept apart, and one is changed after the
other. Between two visits they nevertheless are those of one and the same schema: the last that was
answered since the fields were forgotten, whatever failures have come in between. A cache that is
switched off stays as it was made.
-/

namespace Catalog

namespace Idle

variable {i : Idle} {v : Visit}

theorem after_append_singleton (i : Idle) (visits : List Visit) (v : Visit) :
    i.after (visits ++ [v]) = (i.after visits).next v := by
  rw [after, List.foldl_append]
  rfl

/-- A failure of the schema is counted and changes nothing else. -/
theorem Served.cache_of_failure (h : i.Served v) (hasked : (i.serve v).asked = true)
    (hanswer : v.answer = none) :
    (i.serve v).service.cache =
      { i.service.cache with failures := i.service.cache.failures + 1 } := by
  rw [h.cache_eq, if_pos hasked, hanswer]
  rfl

/-- A cache that is switched off has nothing to forget or to mark. -/
theorem change_new (now : Int) (timeToLive : Nat) (call : Call) :
    call.change now (Cache.new false timeToLive) = Cache.new false timeToLive := by
  cases call with
  | _ => rfl

/-- A cache that is switched off stays as it was made. -/
theorem cache_after_of_disabled {config : Config} (hoff : config.validateFields = false)
    (now : Int) (visits : List Visit) :
    ((new config now).after visits).service.cache = Cache.new false config.timeToLive := by
  induction visits using List.reverseRecOn with
  | nil =>
    show Cache.new config.validateFields config.timeToLive = _
    rw [hoff]
  | append_singleton visits v ih =>
    have hfollows := follows config now visits
    have hserved := served hfollows.cache.free hfollows.steady v
    have hasked : (((new config now).after visits).serve v).asked = false := by
      rw [Bool.eq_false_iff]
      intro hasked
      have hon := (hserved.asked_iff.1 hasked).1
      rw [hfollows.enabled_eq, hoff] at hon
      cases hon
    rw [after_append_singleton, next, hserved.cache_eq, hasked, if_neg (by decide), ih, change_new]

/-- With the cache switched off all names pass. -/
theorem progress_validate_of_disabled (hoff : i.service.cache.enabled = false)
    {names : List String} (hcall : v.call = .validate names) :
    (i.serve v).progress = .answered (.checked (.ok ())) := by
  have hreaches : v.call.Reaches i.service.state (.validate names) := by
    rw [hcall]
    exact .validate names
  rw [serve_of_disabled hoff hreaches]
  rfl

/-- Behind any number of visits, whenever they come and whatever the schema answers: with validation
on, the mapping is the last good answer since the fields were forgotten and the snapshot has its
names, all answers and failures are counted, and a failure of the schema changes nothing but their
number. With validation off the cache knows nothing and refuses no name. -/
theorem cache_eq_lastGood (config : Config) (now : Int) (visits : List Visit) (v : Visit) :
    let i := (new config now).after visits
    let history := (new config now).history visits
    let c := i.service.cache
    (config.validateFields = true →
      c.mapping.dynamic = lastGood history ∧
      c.snapshot.fields = c.mapping.dynamic.map Prod.fst ∧
      c.refreshes = history.countP Happening.isAnswer ∧
      c.failures = history.countP Happening.isFailure ∧
      c.staleReads = 0 ∧
      ((i.serve v).asked = true → v.answer = none →
        (i.serve v).service.cache = { c with failures := c.failures + 1 })) ∧
    (config.validateFields = false →
      c = Cache.new false config.timeToLive ∧
      ∀ names, v.call = .validate names →
        (i.serve v).progress = .answered (.checked (.ok ()))) := by
  intro i history c
  have hfollows : i.Follows config now history := follows config now visits
  have hcache := hfollows.cache
  refine ⟨fun _ => ⟨?_, ?_, hcache.refreshes_eq, hcache.failures_eq, hcache.staleReads_eq, ?_⟩,
    fun hoff => ⟨cache_after_of_disabled hoff now visits, fun names hcall => ?_⟩⟩
  · rw [hcache.mapping_eq]
  · rw [hcache.fields_eq, hcache.mapping_eq]
  · exact (served hcache.free hfollows.steady v).cache_of_failure
  · exact progress_validate_of_disabled (hfollows.enabled_eq.trans hoff) hcall

theorem cache_eq_lastGood_failed_warming :
    let config : Config := { Config.standard with validateFields := true }
    let i := (new config 0).after [⟨.warm, 0, 2, some [("a", "properties.a")]⟩]
    let v : Visit := ⟨.warm, 5, 1, none⟩
    i.service.cache.mapping.dynamic = [("a", "properties.a")] ∧
      i.service.cache.snapshot.fields = ["a"] ∧
      (i.serve v).service.cache =
        { i.service.cache with failures := i.service.cache.failures + 1 } := by
  intro config i v
  let first : Visit := ⟨.warm, 0, 2, some [("a", "properties.a")]⟩
  have hwarm {i : Idle} {v : Visit} (hfollows : ∃ past, i.Follows config 0 past)
      (hcall : v.call = .warm) : (i.serve v).asked = true := by
    obtain ⟨past, hfollows⟩ := hfollows
    refine (served hfollows.cache.free hfollows.steady v).asked_iff.2
      ⟨hfollows.enabled_eq, .warm, ?_, rfl⟩
    rw [hcall]
    exact .warm
  have hfirst : ((new config 0).serve first).asked = true :=
    hwarm ⟨_, follows_new config 0⟩ rfl
  have hhistory : (new config 0).history [first] = [.heard (some [("a", "properties.a")])] := by
    simp [history, happenings, hfirst, first, Call.happenings]
  obtain ⟨hdynamic, hfields, -, -, -, hfailure⟩ :=
    (cache_eq_lastGood config 0 [first] v).1 rfl
  rw [hhistory] at hdynamic
  exact ⟨hdynamic, by rw [hfields, hdynamic]; rfl,
    hfailure (hwarm ⟨_, follows config 0 [first]⟩ rfl) rfl⟩

end Idle

end Catalog
