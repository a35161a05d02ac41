import ArgusEdr.Detect.Correlate
import ArgusEdr.Detect.Rule
import ArgusEdr.Go.Strings

/-!
# The detection engine (`internal/detect/engine.go`, `rule.go`)

An engine is a list of rules, a correlator and a threat-intel matcher. The correlator is shared: a
new engine may be given the one of the engine it replaces, so an engine holds a reference, and the
correlators themselves are a store of their own.
-/

namespace ArgusEdr.Detect

open Model (Event Alert Technique Time)
open Correlate (Correlator Incident)
open Go (Library)

variable [Library]

def Rule.toAlert (r : Rule) (event : Event) : Alert where
  ruleID := r.id
  ruleName := r.name
  severity := r.severity
  technique := r.technique
  riskScore := r.riskScore
  event := event
  requestedAction := r.response

inductive IndicatorType where
  | ip | domain | hash
deriving Repr, DecidableEq

def IndicatorType.string : IndicatorType → String
  | .ip => "ip"
  | .domain => "domain"
  | .hash => "hash"

structure IntelHit where
  type : IndicatorType
deriving Repr, DecidableEq

/-- `intelAlert`. A hash is identity, not behaviour, and carries no technique. -/
def intelAlert (event : Event) (hit : IntelHit) : Alert where
  ruleID := "INTEL-" ++ Go.toUpper Char.toUpper hit.type.string
  ruleName := "Threat intel match"
  severity := .high
  technique :=
    match hit.type with
    | .ip | .domain =>
      { id := "T1071", name := "Application Layer Protocol", tactic := "command-and-control" }
    | .hash => {}
  riskScore := 60
  event := event

structure Engine where
  rules : List Rule := []
  /-- which correlator, if any -/
  correlator : Option ℕ := none
  intel : Option (Event → List IntelHit) := none

structure Result where
  alerts : List Alert := []
  incident : Option Incident := none

namespace Engine

/-- The two loops of `Evaluate`: the rules in order, then the indicators that matched. -/
def alerts (e : Engine) (event : Event) : List Alert :=
  (e.rules.filter fun rule => rule.matches event).map (fun rule => rule.toAlert event) ++
    match e.intel with
    | none => []
    | some source => (source event).map (intelAlert event)

def evaluate (e : Engine) (correlators : ℕ → Correlator) (clock : Time) (event : Event) :
    (ℕ → Correlator) × Result :=
  let alerts := e.alerts event
  match e.correlator with
  | none => (correlators, { alerts })
  | some n =>
    let (correlator, incident) := (correlators n).observe { event, alerts, clock }
    (Function.update correlators n correlator, { alerts, incident })

theorem evaluate_alerts (e : Engine) (correlators : ℕ → Correlator) (clock : Time) (event : Event) :
    (e.evaluate correlators clock event).2.alerts = e.alerts event := by
  unfold evaluate
  split <;> rfl

theorem response_of_mem_alerts {e : Engine} {event : Event} {alert : Alert}
    (h : alert ∈ e.alerts event) : alert.response = none := by
  rcases List.mem_append.mp h with h | h
  · obtain ⟨rule, -, rfl⟩ := List.mem_map.mp h
    rfl
  · split at h
    · cases h
    · obtain ⟨hit, -, rfl⟩ := List.mem_map.mp h
      rfl

end Engine

end ArgusEdr.Detect
