import Catalog.Proofs.Service.History

/-!
# When the schema is asked

The schema is asked for a call exactly when the call reaches the cache and finds nothing fresh
there, and warming always asks. Fields that stay fresh for no time are never found fresh. Fields
that stay fresh for longer than a service has been running are found fresh exactly when they were
loaded since they were last forgotten or marked as stale.
-/

namespace Catalog

namespace Idle

variable {config : Config} {start : Int} {past : List Happening} {i : Idle} {v : Visit}

/-- Fields that stay fresh for no time are stale at any later instant. -/
theorem Follows.isStale_of_timeToLive_eq_zero (h : i.Follows config start past)
    (hzero : config.timeToLive = 0) (wait : Nat) :
    i.service.cache.isStale (i.now + wait) = true := by
  rw [Cache.isStale_iff, h.timeToLive_eq, hzero]
  intro instant hmem
  have hle := h.cache.le_now instant hmem
  omega

/-- Fields that outlive the service are fresh when they are loaded, and stale when they are not. -/
theorem Follows.isStale_iff (h : i.Follows config start past) (wait : Nat)
    (hlong : i.now + wait - start < config.timeToLive) :
    i.service.cache.isStale (i.now + wait) = true ↔ isLoaded past = false := by
  rw [Cache.isStale_iff]
  constructor
  · intro hstale
    rw [Bool.eq_false_iff]
    intro hload
    obtain ⟨instant, hmem, hle⟩ := h.cache.loaded hload
    have hold := hstale instant hmem
    rw [h.timeToLive_eq] at hold
    omega
  · intro hload instant hmem
    have hold := h.cache.stale hload instant hmem
    omega

/-- A purpose that finds nothing fresh has to ask. -/
theorem asks_iff {purpose : Purpose} {now : Int} {c : Cache} :
    purpose.asks now c = true ↔ (purpose = .read → c.isStale now = true) := by
  cases purpose with
  | read => simp [Purpose.asks]
  | warm => simp [Purpose.asks]

theorem Follows.asked_iff (h : i.Follows config start past) (hon : config.validateFields = true)
    (v : Visit) :
    (i.serve v).asked = true ↔ ∃ goal, v.call.Reaches i.service.state goal ∧
      (goal.purpose = .read → i.service.cache.isStale (i.now + v.wait) = true) := by
  rw [(served h.cache.free h.steady v).asked_iff, h.enabled_eq, hon]
  simp only [true_and, asks_iff]

/-- A call that only reads the fields asks when they are stale. -/
theorem Follows.asked_iff_isStale (h : i.Follows config start past)
    (hon : config.validateFields = true) {goal : Goal}
    (hreaches : v.call.Reaches i.service.state goal) (hread : goal.purpose = .read) :
    (i.serve v).asked = true ↔ i.service.cache.isStale (i.now + v.wait) = true := by
  rw [h.asked_iff hon]
  constructor
  · rintro ⟨other, hother, hstale⟩
    rw [← hreaches.unique hother] at hstale
    exact hstale hread
  · exact fun hstale => ⟨goal, hreaches, fun _ => hstale⟩

/-- Behind any number of visits, whenever they come and whatever the schema answers, a visit is
answered. With validation on the schema is asked for it, once, if the call reaches the cache, and if
it is to warm the cache or the snapshot has no instant or is as old as it may get. With validation
off the schema is never asked. A start leaves the service ready, a shutdown leaves it stopped, and
all other calls leave its state as it was. -/
theorem schema_asked_iff (config : Config) (now : Int) (visits : List Visit) (v : Visit) :
    let i := (new config now).after visits
    let r := i.serve v
    (∃ response, r.progress = .answered response) ∧
    (config.validateFields = true →
      (r.asked = true ↔ ∃ goal, v.call.Reaches i.service.state goal ∧
        (goal.purpose = .read → ∀ instant ∈ i.service.cache.snapshot.loadedAt,
          (config.timeToLive : Int) ≤ i.now + v.wait - instant)) ∧
      ∀ goal, v.call.Reaches i.service.state goal → goal.purpose = .read →
        (config.timeToLive = 0 → r.asked = true) ∧
        (i.now + v.wait - now < config.timeToLive →
          (r.asked = true ↔ isLoaded ((new config now).history visits) = false))) ∧
    (config.validateFields = false → r.asked = false) ∧
    r.service.state = v.call.stateAfter i.service.state := by
  intro i r
  have h : i.Follows config now ((new config now).history visits) := follows config now visits
  have hserved : i.Served v := served h.cache.free h.steady v
  refine ⟨hserved.answered, fun hon => ⟨?_, fun goal hreaches hread => ⟨fun hzero => ?_,
    fun hlong => ?_⟩⟩, fun hoff => ?_, hserved.state_eq⟩
  · rw [h.asked_iff hon]
    simp only [Cache.isStale_iff, h.timeToLive_eq]
  · exact (h.asked_iff_isStale hon hreaches hread).2 (h.isStale_of_timeToLive_eq_zero hzero v.wait)
  · rw [h.asked_iff_isStale hon hreaches hread, h.isStale_iff v.wait hlong]
  · rw [Bool.eq_false_iff]
    intro hasked
    have hon := (hserved.asked_iff.1 hasked).1
    rw [h.enabled_eq, hoff] at hon
    cases hon

theorem schema_asked_iff_invalidated :
    let config : Config := { Config.standard with validateFields := true }
    let load : Visit := ⟨.fields, 0, 2, some [("a", "properties.a")]⟩
    let invalidate : Visit := ⟨.invalidate, 1, 0, none⟩
    let read : Visit := ⟨.fields, 5, 0, none⟩
    (((new config 0).after [load]).serve read).asked = false ∧
      (((new config 0).after [load, invalidate]).serve read).asked = true := by
  intro config load invalidate read
  have hlong (visits : List Visit) :
      ((((new config 0).after visits).now + read.wait - 0 < config.timeToLive) →
        ((((new config 0).after visits).serve read).asked = true ↔
          isLoaded ((new config 0).history visits) = false)) :=
    ((((schema_asked_iff config 0 visits read).2.1 rfl).2 .fields .fields rfl).2)
  have hload : ((new config 0).serve load).asked = true :=
    (((schema_asked_iff config 0 [] load).2.1 rfl).1).2 ⟨.fields, .fields, fun _ _ h => nomatch h⟩
  have hinvalidate : (((new config 0).next load).serve invalidate).asked = false := by
    rw [Bool.eq_false_iff]
    intro hasked
    obtain ⟨goal, hreaches, -⟩ :=
      (((schema_asked_iff config 0 [load] invalidate).2.1 rfl).1).1 hasked
    cases hreaches
  constructor
  · have hhistory : (new config 0).history [load] = [.heard (some [("a", "properties.a")])] := by
      simp [history, happenings, hload, load, Call.happenings]
    rw [Bool.eq_false_iff]
    intro hasked
    have hloaded := (hlong [load] (by decide)).1 hasked
    rw [hhistory] at hloaded
    cases hloaded
  · have hhistory : (new config 0).history [load, invalidate] =
        [.heard (some [("a", "properties.a")]), .marked] := by
      simp [history, happenings, hload, hinvalidate, load, invalidate, Call.happenings]
    refine (hlong [load, invalidate] (by decide)).2 ?_
    rw [hhistory]
    rfl

end Idle

end Catalog
