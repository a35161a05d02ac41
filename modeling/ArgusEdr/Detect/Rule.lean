import ArgusEdr.Detect.Condition

/-!
# Detection rules (`internal/detect/rule.go`, `loader.go`)

A rule file is a list of documents. `compileRule` turns a document into a rule, or rejects it
with the error it is reported with at load.
-/

namespace ArgusEdr.Detect

open Model (Event Severity Technique)
open Go (Library Fault)

variable [Library]

structure RuleDoc where
  id : String
  name : String := ""
  description : String := ""
  severity : String
  technique : Technique := {}
  enabled : Option Bool := none
  riskScore : ℤ := 0
  response : String := ""
  condition : Option Condition

/-- A compiled detection: a condition tree plus the metadata of the alerts it produces. -/
structure Rule where
  id : String
  name : String
  description : String
  severity : Severity
  technique : Technique
  enabled : Bool
  riskScore : ℤ
  response : String
  condition : Condition
  predicate : Predicate

def Rule.matches (r : Rule) (e : Event) : Bool := r.enabled && r.predicate e

def compileRule (doc : RuleDoc) : Except Fault Rule :=
  if doc.id = "" then .error (.err (.errorf "missing id" []))
  else
    match doc.condition with
    | none => .error (.err (.errorf "missing match block" []))
    | some condition =>
      match Model.parseSeverity doc.severity with
      | .error e => .error (.err e)
      | .ok severity =>
        match condition.compile with
        | .error f => .error f
        | .ok predicate => .ok
          { id := doc.id
            name := doc.name
            description := doc.description
            severity := severity
            technique := doc.technique
            enabled := doc.enabled.getD true
            riskScore := doc.riskScore
            response := doc.response
            condition := condition
            predicate := predicate }

theorem exists_compileRule_iff {doc : RuleDoc} :
    (∃ rule, compileRule doc = .ok rule) ↔
      doc.id ≠ "" ∧ (∃ condition, doc.condition = some condition ∧ condition.Compiles) ∧
        ∃ severity, Model.parseSeverity doc.severity = .ok severity := by
  unfold compileRule
  by_cases hid : doc.id = ""
  · simp [hid]
  · rw [if_neg hid]
    cases doc.condition with
    | none => simp
    | some condition =>
      cases Model.parseSeverity doc.severity with
      | error => simp
      | ok =>
        cases hcompile : condition.compile with
        | error => simp [Condition.Compiles, hcompile]
        | ok => simp [Condition.Compiles, hid, hcompile]

end ArgusEdr.Detect
