import Catalog.Number.Double
import Catalog.Text.Order

/-!
# Metrics

What a service counts. A series is named by its metric and its labels, which are written in order
of their names. Counters add up, gauges keep the last value, and of a histogram the samples are kept
in order. Of the histograms of durations only the number of samples is kept.
-/

namespace Catalog

/-- Something that is measured. -/
inductive Event where
  /-- A compilation has ended with a status. -/
  | compilation (kind status : String)
  /-- A compilation was refused because of an error. -/
  | refusal (kind error : String)
  /-- The duration of a compilation. -/
  | latency (kind : String)
  /-- The schema was asked for, and the answer came or did not come. -/
  | refresh (success : Bool)
  /-- The number of fields that are known now. -/
  | fields (count : Nat)
  /-- Fields were refused. -/
  | rejections (count : Nat)
  /-- A script had so many statements and was left with so many. -/
  | script (emitted kept : Nat)
  /-- The service has entered a state. -/
  | lifecycle (state : String)
  deriving DecidableEq, Repr

/-- All series that were ever touched. -/
structure Metrics where
  counters : List (String × Nat)
  gauges : List (String × Nat)
  /-- The numbers of samples of durations. -/
  timings : List (String × Nat)
  samples : List (String × List Nat)
  deriving DecidableEq, Repr

namespace Metrics

/-- Nothing was measured yet. -/
def empty : Metrics := ⟨[], [], [], []⟩

/-- The name of a series. -/
def series (metric : String) (labels : List (String × String)) : String :=
  let pairs := labels.map fun (name, value) => name ++ "=" ++ value
  metric ++ "\x7b" ++ ",".intercalate pairs ++ "\x7d"

/-- Change the entry of a name, which starts from a value when there is none. -/
def update {α : Type} (start : α) (name : String) (f : α → α) :
    List (String × α) → List (String × α)
  | [] => [(name, f start)]
  | (other, a) :: rest =>
    if other = name then (other, f a) :: rest else (other, a) :: update start name f rest

/-- Add to a counter. A counter to which nothing is added exists as well. -/
def increment (m : Metrics) (name : String) (n : Nat) : Metrics :=
  { m with counters := update 0 name (· + n) m.counters }

/-- The value of a count as a double, which rounds counts beyond `2 ^ 53`. -/
def asDouble (n : Nat) : Nat :=
  match Double.ofDecimal? false n 0 with
  | some x => x.mantissa * (Double.powerOfTwo x.exponent).1 / (Double.powerOfTwo x.exponent).2
  | none => n

/-- Set a gauge. -/
def set (m : Metrics) (name : String) (n : Nat) : Metrics :=
  { m with gauges := update 0 name (fun _ => asDouble n) m.gauges }

/-- Take the sample of a duration. -/
def time (m : Metrics) (name : String) : Metrics :=
  { m with timings := update 0 name (· + 1) m.timings }

/-- Take a sample. -/
def sample (m : Metrics) (name : String) (n : Nat) : Metrics :=
  { m with samples := update [] name (· ++ [asDouble n]) m.samples }

/-- The counter of compilations of a kind that ended with a status. -/
def compilations (kind status : String) : String :=
  series "catalog_compiler_compilations_total" [("kind", kind), ("status", status)]

/-- The counter of compilations of a kind that were refused because of an error. -/
def refusals (kind error : String) : String :=
  series "catalog_compiler_compile_errors_total" [("error", error), ("kind", kind)]

/-- Record an event. A refusal counts as a compilation that ended with an error. -/
def record (m : Metrics) : Event → Metrics
  | .compilation kind status => m.increment (compilations kind status) 1
  | .refusal kind error =>
    (m.increment (compilations kind "error") 1).increment (refusals kind error) 1
  | .latency kind => m.time (series "catalog_compiler_compile_seconds" [("kind", kind)])
  | .refresh success =>
    let status := if success then "success" else "failure"
    (m.increment (series "catalog_compiler_queryables_refresh_total" [("status", status)]) 1).time
      "catalog_compiler_queryables_refresh_seconds"
  | .fields count => m.set "catalog_compiler_queryables_fields" count
  | .rejections count => m.increment "catalog_compiler_validation_rejections_total" count
  | .script emitted kept =>
    let sampled := m.sample "catalog_compiler_script_instructions" kept
    if kept < emitted then
      sampled.increment "catalog_compiler_script_deduplicated_total" (emitted - kept)
    else sampled
  | .lifecycle state => m.set (series "catalog_compiler_state" [("state", state)]) 1

/-- Record events in order. -/
def recordAll (m : Metrics) (events : List Event) : Metrics := events.foldl record m

/-- The value of a counter. -/
def counter (m : Metrics) (name : String) : Nat := (m.counters.lookup name).getD 0

end Metrics

end Catalog
