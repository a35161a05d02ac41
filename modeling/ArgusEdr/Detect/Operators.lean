import ArgusEdr.Model.Event

/-!
# Leaf conditions of detection rules (`internal/detect/operators.go`)

A leaf compares one field of an event with a value from the rule file. `compileLeaf` checks
the field and the operator and returns the predicate, or the error a bad rule is reported
with at load.
-/

namespace ArgusEdr.Detect

open Model (Event FieldValue)
open Go (Library)

/-- What the YAML decoder puts into an `any`. `other` is a value of a kind no operator looks
into (a map, a timestamp), with the text and the type name `fmt` prints for it. -/
inductive Value [Library] where
  | null
  | str (s : String)
  | int (n : Int64)
  | uint64 (n : UInt64)
  | float (x : Library.Float64)
  | bool (b : Bool)
  | list (vs : List Value)
  | other (text typeName : String)

variable [Library]

mutual
/-- `fmt.Sprint`. -/
def Value.sprint : Value → String
  | .null => "<nil>"
  | .str s => s
  | .int n => toString n.toInt
  | .uint64 n => toString n.toNat
  | .float x => Library.sprintFloat x
  | .bool b => Go.formatBool b
  | .list vs => "[" ++ " ".intercalate (sprintAll vs) ++ "]"
  | .other text _ => text

def sprintAll : List Value → List String
  | [] => []
  | v :: vs => v.sprint :: sprintAll vs
end

/-- `%T`. -/
def Value.typeName : Value → String
  | .null => "<nil>"
  | .str _ => "string"
  | .int _ => "int"
  | .uint64 _ => "uint64"
  | .float _ => "float64"
  | .bool _ => "bool"
  | .list _ => "[]interface \x7b\x7d"
  | .other _ name => name

/-- `toString`: a string is itself, everything else is printed. -/
def toString (value : Value) : String := value.sprint

def toBool : Value → Option Bool
  | .bool b => some b
  | .str s => Go.parseBool s
  | .null | .int _ | .uint64 _ | .float _ | .list _ | .other .. => none

/-- `toInt64`; a `float64` is truncated. -/
def toInt64 : Value → Option ℤ
  | .int n => some n.toInt
  | .float x => some (Library.toInt64 x)
  | .str s => Go.parseInt64 s
  | .null | .uint64 _ | .bool _ | .list _ | .other .. => none

/-- The kind of the field decides how the rule's value is read. -/
def valuesEqual (actual : FieldValue) (want : Value) : Bool :=
  match actual with
  | .str a => a = toString want
  | .bool a => toBool want = some a
  | .int a => toInt64 want = some a

abbrev Predicate := Event → Bool

def equality (field : String) (want : Value) (negate : Bool) : Predicate := fun e =>
  match e.field field with
  -- an absent field equals nothing, so `ne` holds of it
  | none => negate
  | some actual => valuesEqual actual want != negate

def membership (field : String) (value : Value) (negate : Bool) : Except Go.Error Predicate :=
  match value with
  | .list vs => .ok fun e =>
    match e.field field with
    | none => negate
    | some actual => if vs.any (valuesEqual actual) then !negate else negate
  | v => .error (.errorf "operator in/not_in needs a list value, got %T" [v.typeName])

def stringField (e : Event) (field : String) : Option String :=
  match e.field field with
  | some (.str s) => some s
  | _ => none

def onString (field : String) (test : String → Bool) : Predicate := fun e =>
  (stringField e field).any test

def stringMatch (field op : String) (value : Value) : Except Go.Error Predicate :=
  let want := toString value
  .ok (onString field fun actual =>
    if op = "contains" then Go.contains actual want
    else if op = "startswith" then Go.startsWith actual want
    else Go.hasSuffix actual want)

def regexMatch (field : String) (value : Value) : Except Go.Error Predicate :=
  match Library.regexp (toString value) with
  | .error err => .error (.wrapf "invalid regex %q: %w" [toString value] err)
  | .ok test => .ok (onString field test)

theorem regexMatch_of_ok {field text : String} {test : String → Bool}
    (h : Library.regexp text = .ok test) :
    regexMatch field (.str text) = .ok (onString field test) := by
  have hvalue : toString (Value.str text) = text := rfl
  rw [regexMatch, hvalue, h]

def numberCompare (field op : String) (value : Value) : Except Go.Error Predicate :=
  match toInt64 value with
  | none => .error (.errorf "operator %s needs a numeric value, got %T" [op, value.typeName])
  | some want => .ok fun e =>
    match e.field field with
    | some (.int n) =>
      if op = "gt" then n > want
      else if op = "lt" then n < want
      else if op = "ge" then n ≥ want
      else n ≤ want
    | _ => false

def cidrMatch (field : String) (value : Value) : Except Go.Error Predicate :=
  match Library.cidr (toString value) with
  | .error err => .error (.wrapf "invalid cidr %q: %w" [toString value] err)
  | .ok test => .ok (onString field test)

def compileLeaf (field op : String) (value : Value) : Except Go.Error Predicate :=
  if field = "" then .error (.errorf "leaf condition has no field" [])
  else if ¬Model.knownField field then .error (.errorf "unknown field %q" [field])
  else if op = "exists" then .ok fun e => (e.field field).isSome
  else if op = "eq" then .ok (equality field value false)
  else if op = "ne" then .ok (equality field value true)
  else if op = "in" then membership field value false
  else if op = "not_in" then membership field value true
  else if op ∈ ["contains", "startswith", "endswith"] then stringMatch field op value
  else if op = "regex" then regexMatch field value
  else if op ∈ ["gt", "lt", "ge", "le"] then numberCompare field op value
  else if op = "cidr" then cidrMatch field value
  else .error (.errorf "unknown operator %q" [op])

theorem field_ne_of_compileLeaf {field op : String} {value : Value} {p : Predicate}
    (h : compileLeaf field op value = .ok p) : field ≠ "" := by
  rintro rfl
  simp [compileLeaf] at h

theorem compileLeaf_event_type (action : String) :
    compileLeaf "event.type" "eq" (.str action) = .ok (equality "event.type" (.str action) false) := by
  have hknown : Model.knownField "event.type" = true := rfl
  simp [compileLeaf, hknown]

theorem equality_event_type {e : Event} (h : e.action ≠ "") (action : String) :
    equality "event.type" (.str action) false e = decide (e.action = action) := by
  rw [equality, Model.field_event_type, Model.textField, if_neg h]
  show (decide (e.action = toString (.str action)) != false) = _
  rw [Bool.bne_false, toString, Value.sprint]

theorem compileLeaf_event_action_exists (value : Value) :
    compileLeaf "event.action" "exists" value = .ok fun e => (e.field "event.action").isSome := by
  have hknown : Model.knownField "event.action" = true := rfl
  simp [compileLeaf, hknown]

end ArgusEdr.Detect
