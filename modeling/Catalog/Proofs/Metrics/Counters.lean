import Catalog.Proofs.Text.Separated
import Catalog.Service.Basic
import Mathlib.Data.List.Basic

/-!
# The counters of compilations

The name of a series is put together from its metric and its labels. For the metrics of
compilations it can be taken apart again, so a compilation adds to the counters of its own kind and
outcome, and nothing else that is measured adds to any of them.
-/

namespace Catalog

namespace Metrics

theorem lookup_update {α : Type} (start : α) (name : String) (f : α → α)
    (entries : List (String × α)) (other : String) :
    (update start name f entries).lookup other =
      if other = name then some (f ((entries.lookup name).getD start))
      else entries.lookup other := by
  have lookup_cons (key : String) (a : α) (rest : List (String × α)) (name : String) :
      ((key, a) :: rest).lookup name = if name = key then some a else rest.lookup name := by
    by_cases h : name = key <;> simp [List.lookup_cons, h, beq_eq_false_iff_ne.2]
  induction entries with
  | nil => rw [update, lookup_cons, List.lookup_nil, List.lookup_nil, Option.getD_none]
  | cons entry rest ih =>
    obtain ⟨key, a⟩ := entry
    by_cases hkey : key = name
    · subst hkey
      by_cases h : other = key <;> simp [update, lookup_cons, h]
    · by_cases h : other = key
      · subst h
        simp [update, lookup_cons, hkey]
      · simp [update, lookup_cons, hkey, h, Ne.symm hkey, ih]

theorem counter_increment (m : Metrics) (name : String) (n : Nat) (other : String) :
    (m.increment name n).counter other =
      m.counter other + if other = name then n else 0 := by
  rw [counter, increment, lookup_update]
  by_cases h : other = name <;> simp [counter, h]

theorem toList_series (metric : String) (labels : List (String × String)) :
    (series metric labels).toList = metric.toList ++ '\x7b' ::
      ((",".intercalate (labels.map fun label => label.1 ++ "=" ++ label.2)).toList ++
        ['\x7d']) := by
  simp [series]

/-- The name of a metric has no bracket in it, which opens the labels of a series. -/
def IsMetric (name : String) : Prop := '\x7b' ∉ name.toList

instance (name : String) : Decidable (IsMetric name) :=
  inferInstanceAs (Decidable ('\x7b' ∉ name.toList))

theorem IsMetric.ne_series {name : String} (h : IsMetric name) (metric : String)
    (labels : List (String × String)) : series metric labels ≠ name := by
  rintro rfl
  exact h (by rw [toList_series]; simp)

theorem IsMetric.eq_of_series_eq {metric metric' : String} {labels labels' : List (String × String)}
    (hm : IsMetric metric) (hm' : IsMetric metric')
    (h : series metric labels = series metric' labels') : metric = metric' := by
  have hlist := congrArg String.toList h
  rw [toList_series, toList_series] at hlist
  exact String.toList_inj.1 (Text.cons_append_inj hm hm' hlist).1

theorem toList_series_pair (metric name value name' value' : String) :
    (series metric [(name, value), (name', value')]).toList =
      metric.toList ++ '\x7b' :: (name.toList ++ '=' :: (value.toList ++ ',' ::
        (name'.toList ++ '=' :: (value'.toList ++ ['\x7d'])))) := by
  simp [series]

/-- Two labels can be read off a series if the first value holds no comma. -/
theorem values_eq_of_notMem_comma {metric name name' v v' w w' : String}
    (hv : ',' ∉ v.toList) (hw : ',' ∉ w.toList)
    (h : series metric [(name, v), (name', v')] = series metric [(name, w), (name', w')]) :
    v = w ∧ v' = w' := by
  have hlist := congrArg String.toList h
  rw [toList_series_pair, toList_series_pair] at hlist
  obtain ⟨-, hfirst⟩ := List.cons.inj (List.append_cancel_left hlist)
  obtain ⟨-, hfirst⟩ := List.cons.inj (List.append_cancel_left hfirst)
  obtain ⟨hvw, hsecond⟩ := Text.cons_append_inj hv hw hfirst
  obtain ⟨-, hsecond⟩ := List.cons.inj (List.append_cancel_left hsecond)
  exact ⟨String.toList_inj.1 hvw, String.toList_inj.1 (List.append_cancel_right hsecond)⟩

/-- They can as well if the second value holds no equals sign. -/
theorem values_eq_of_notMem_equals {metric name name' v v' w w' : String}
    (hv : '=' ∉ v'.toList) (hw : '=' ∉ w'.toList)
    (h : series metric [(name, v), (name', v')] = series metric [(name, w), (name', w')]) :
    v = w ∧ v' = w' := by
  have hlist := congrArg String.toList h
  rw [toList_series_pair, toList_series_pair] at hlist
  obtain ⟨-, hfirst⟩ := List.cons.inj (List.append_cancel_left hlist)
  obtain ⟨-, hfirst⟩ := List.cons.inj (List.append_cancel_left hfirst)
  have hassoc (x y : String) : x.toList ++ ',' :: (name'.toList ++ '=' :: (y.toList ++ ['\x7d'])) =
      (x.toList ++ ',' :: name'.toList) ++ '=' :: (y.toList ++ ['\x7d']) := by simp
  have hend {y : String} (hy : '=' ∉ y.toList) : '=' ∉ y.toList ++ ['\x7d'] := by simp [hy]
  rw [hassoc, hassoc] at hfirst
  obtain ⟨hvw, hsecond⟩ := Text.append_cons_inj (hend hv) (hend hw) hfirst
  exact ⟨String.toList_inj.1 (List.append_cancel_right hvw),
    String.toList_inj.1 (List.append_cancel_right hsecond)⟩

end Metrics

namespace CompileKind

/-- The label of a kind in a series. -/
def label : CompileKind → String
  | filter => "filter"
  | query => "query"
  | sort => "sortby"
  | patch => "patch"
  | mergePatch => "merge_patch"

theorem name_eq_label (kind : CompileKind) : kind.name = kind.label := by
  cases kind <;> rfl

/-- The label of a kind holds no punctuation of a series. -/
theorem notMem_label (kind : CompileKind) : ',' ∉ kind.label.toList ∧ '=' ∉ kind.label.toList := by
  cases kind with
  | _ => decide

theorem label_injective : Function.Injective label := by
  intro kind kind' h
  cases kind <;> cases kind' <;> first | rfl | exact absurd h (by decide)

end CompileKind

/-- The event tells how a compilation has ended. -/
def Event.isOutcome : Event → Bool
  | .compilation .. => true
  | .refusal .. => true
  | _ => false

/-- What is counted of the compilations. -/
inductive Tally where
  /-- How many compilations of a kind have succeeded, or have not. -/
  | ended (kind : CompileKind) (success : Bool)
  /-- How many compilations of a kind were refused because of an error. -/
  | refused (kind : CompileKind) (error : String)
  deriving DecidableEq, Repr

namespace Tally

open Metrics

/-- The status of a compilation. -/
def status (success : Bool) : String := if success then "success" else "error"

theorem status_injective : Function.Injective status := by
  unfold Function.Injective
  decide

/-- The series that is kept for a tally. -/
def series : Tally → String
  | ended kind success =>
    Metrics.series "catalog_compiler_compilations_total"
      [("kind", kind.label), ("status", status success)]
  | refused kind error =>
    Metrics.series "catalog_compiler_compile_errors_total"
      [("error", error), ("kind", kind.label)]

/-- A compilation with this outcome adds to the tally. -/
def counts {α : Type} (kind : CompileKind) : Except CompileError α → Tally → Bool
  | .ok _, ended k success => k = kind ∧ success
  | .error _, ended k success => k = kind ∧ !success
  | .ok _, refused _ _ => false
  | .error e, refused k error => k = kind ∧ error = e.kind

theorem isMetric_compilations : IsMetric "catalog_compiler_compilations_total" := by decide

theorem isMetric_refusals : IsMetric "catalog_compiler_compile_errors_total" := by decide

/-- Different tallies are kept in different series. -/
theorem series_injective : Function.Injective series := by
  intro t t' h
  cases t with
  | ended kind success =>
    cases t' with
    | ended kind' success' =>
      obtain ⟨hkind, hstatus⟩ :=
        values_eq_of_notMem_comma kind.notMem_label.1 kind'.notMem_label.1 h
      rw [CompileKind.label_injective hkind, status_injective hstatus]
    | refused kind' error =>
      have hmetric := isMetric_compilations.eq_of_series_eq isMetric_refusals h
      exact absurd hmetric (by decide)
  | refused kind error =>
    cases t' with
    | ended kind' success =>
      have hmetric := isMetric_refusals.eq_of_series_eq isMetric_compilations h
      exact absurd hmetric (by decide)
    | refused kind' error' =>
      obtain ⟨herror, hkind⟩ :=
        values_eq_of_notMem_equals kind.notMem_label.2 kind'.notMem_label.2 h
      rw [CompileKind.label_injective hkind, herror]

theorem series_ne_of_isMetric {name : String} (h : IsMetric name) (t : Tally) :
    t.series ≠ name := by
  cases t with
  | _ => exact h.ne_series _ _

/-- A tally is not kept in a series of another metric. -/
theorem series_ne_series {metric : String} (h : IsMetric metric)
    (hc : metric ≠ "catalog_compiler_compilations_total")
    (hr : metric ≠ "catalog_compiler_compile_errors_total") (labels : List (String × String))
    (t : Tally) : t.series ≠ Metrics.series metric labels := by
  cases t with
  | ended kind success => exact fun ht => hc (isMetric_compilations.eq_of_series_eq h ht).symm
  | refused kind error => exact fun ht => hr (isMetric_refusals.eq_of_series_eq h ht).symm

/-- What else is measured is in no tally. -/
theorem counter_record_of_not_isOutcome {e : Event} (h : e.isOutcome = false) (m : Metrics)
    (t : Tally) : (m.record e).counter t.series = m.counter t.series := by
  have counter_increment_of_ne {name : String} (hname : t.series ≠ name) (m : Metrics) (n : Nat) :
      (m.increment name n).counter t.series = m.counter t.series := by
    rw [counter_increment, if_neg hname, Nat.add_zero]
  cases e with
  | compilation kind status => cases h
  | refusal kind error => cases h
  | latency kind => rfl
  | refresh success =>
    have hmetric : IsMetric "catalog_compiler_queryables_refresh_total" := by decide
    exact counter_increment_of_ne
      (series_ne_series hmetric (by decide) (by decide) _ t) m 1
  | fields count => rfl
  | rejections count =>
    have hmetric : IsMetric "catalog_compiler_validation_rejections_total" := by decide
    exact counter_increment_of_ne (series_ne_of_isMetric hmetric t) m count
  | script emitted kept =>
    have hmetric : IsMetric "catalog_compiler_script_deduplicated_total" := by decide
    simp only [record]
    split
    · exact counter_increment_of_ne (series_ne_of_isMetric hmetric t) _ _
    · rfl
  | lifecycle state => rfl

theorem counter_recordAll_of_not_isOutcome {events : List Event}
    (h : ∀ e ∈ events, e.isOutcome = false) (m : Metrics) (t : Tally) :
    (m.recordAll events).counter t.series = m.counter t.series := by
  induction events generalizing m with
  | nil => rfl
  | cons e rest ih =>
    rw [List.forall_mem_cons] at h
    exact (ih h.2 (m.record e)).trans (counter_record_of_not_isOutcome h.1 m t)

theorem counter_compilation (m : Metrics) (kind : CompileKind) (success : Bool) (t : Tally) :
    (m.record (.compilation kind.name (status success))).counter t.series =
      m.counter t.series + if t = ended kind success then 1 else 0 := by
  rw [record, counter_increment, kind.name_eq_label]
  exact congrArg _ (if_congr (series_injective.eq_iff (b := ended kind success)) rfl rfl)

theorem counter_refusal (m : Metrics) (kind : CompileKind) (error : String) (t : Tally) :
    (m.record (.refusal kind.name error)).counter t.series =
      m.counter t.series + (if t = ended kind false then 1 else 0) +
        if t = refused kind error then 1 else 0 := by
  rw [record, counter_increment, counter_increment, kind.name_eq_label]
  exact congrArg₂ _
    (congrArg _ (if_congr (series_injective.eq_iff (b := ended kind false)) rfl rfl))
    (if_congr (series_injective.eq_iff (b := refused kind error)) rfl rfl)

end Tally

/-- The outcome of a compilation is added once to the tallies that it counts for. -/
theorem Service.counter_recordOutcome {α : Type} (s : Service) (kind : CompileKind)
    (r : Except CompileError α) (t : Tally) :
    (s.recordOutcome kind r).metrics.counter t.series =
      s.metrics.counter t.series + (t.counts kind r).toNat := by
  have ite_eq_toNat (p : Prop) [Decidable p] : (if p then 1 else 0) = (decide p).toNat := by
    by_cases h : p <;> simp [h]
  cases r with
  | ok a =>
    refine (Tally.counter_compilation s.metrics kind true t).trans (congrArg _ ?_)
    cases t with
    | ended k success => cases success <;> simp [Tally.counts, ite_eq_toNat]
    | refused k error => rfl
  | error e =>
    refine (Tally.counter_refusal s.metrics kind e.kind t).trans ?_
    cases t with
    | ended k success => cases success <;> simp [Tally.counts, ite_eq_toNat]
    | refused k error => simp [Tally.counts, ite_eq_toNat]

end Catalog
