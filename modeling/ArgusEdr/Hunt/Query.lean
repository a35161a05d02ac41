import ArgusEdr.Detect.Rule

/-!
# ARQL queries (`internal/hunt`)

A simple query selects the events of a class that pass a `where` expression and then each
`where` of its pipes. `Expr.eval` is how a hunt evaluates an expression; `Expr.toCond` is the
match tree the expression becomes when the hunt is saved as a rule, with chains of one
operator flattened into one group.
-/

namespace ArgusEdr.Hunt

open Model (Event FieldValue)
open Go (Library)
open Detect (Condition Value)

variable [Library]

/-! ## Expressions -/

inductive Literal where
  | text (s : String)
  | number (written : String) (num : Library.Float64)

namespace Literal

def str : Literal → String
  | text s => s
  | number written _ => written

/-- `value.String`. -/
def string : Literal → String
  | text s => s
  | number _ num => Library.formatFloat num

def asNumber : Literal → Option Library.Float64
  | text s => Library.parseFloat s
  | number _ num => some num

/-- `value.literal`: a whole number stays an integer in the rule file. -/
def literal : Literal → Value
  | text s => .str s
  | number _ num =>
    if Library.eq num (Library.ofInt64 (Library.toInt64 num)) then
      .int (Int64.ofInt (Library.toInt64 num))
    else .float num

end Literal

inductive Op where
  | eq | ne | gt | lt | ge | le | regex | contains | startswith | endswith | isIn
deriving Repr, DecidableEq

/-- `ruleOps`: the detection engine's name of an operator. -/
def ruleOps : Op → String
  | .eq => "eq"
  | .ne => "ne"
  | .gt => "gt"
  | .lt => "lt"
  | .ge => "ge"
  | .le => "le"
  | .regex => "regex"
  | .contains => "contains"
  | .startswith => "startswith"
  | .endswith => "endswith"
  | .isIn => "in"

/-- One field against a value, or against a list of them for `in`. -/
structure Comparison where
  field : String
  op : Op
  value : Literal := .text ""
  values : List Literal := []

def toString : FieldValue → String
  | .str s => s
  | .int n => ToString.toString n
  | .bool b => Go.formatBool b

def toNumber : FieldValue → Option Library.Float64
  | .str s => Library.parseFloat s
  | .int n => some (Library.ofInt64 n)
  | .bool _ => none

def valueEquals (raw : FieldValue) (v : Literal) : Bool :=
  match raw with
  | .int n => v.asNumber.any fun num => Library.eq (Library.ofInt64 n) num
  | .bool b => v.str = Go.formatBool b
  | .str s => s = v.string

def numericCompare (raw : FieldValue) (op : Op) (v : Literal) : Bool :=
  match toNumber raw, v.asNumber with
  | some left, some right =>
    match op with
    | .gt => Library.lt right left
    | .lt => Library.lt left right
    | .ge => Library.le right left
    | .le => Library.le left right
    | _ => false
  | _, _ => false

/-- `comparison.eval`: an absent field never matches, also not for `!=`. The regular
expression is the one the parser compiled from the literal. -/
def Comparison.eval (c : Comparison) (e : Event) : Bool :=
  match e.field c.field with
  | none => false
  | some raw =>
    match c.op with
    | .eq => valueEquals raw c.value
    | .ne => !valueEquals raw c.value
    | .contains => Go.contains (toString raw) c.value.str
    | .startswith => Go.startsWith (toString raw) c.value.str
    | .endswith => Go.hasSuffix (toString raw) c.value.str
    | .regex =>
      match Library.regexp c.value.str with
      | .ok test => test (toString raw)
      | .error _ => false
    | .isIn => c.values.any (valueEquals raw)
    | .gt | .lt | .ge | .le => numericCompare raw c.op c.value

def Comparison.leafValue (c : Comparison) : Value :=
  match c.op with
  | .isIn => .list (c.values.map Literal.literal)
  | _ => c.value.literal

def Comparison.toCond (c : Comparison) : Condition := .leaf c.field (ruleOps c.op) c.leafValue

inductive Expr where
  | and (left right : Expr)
  | or (left right : Expr)
  | not (inner : Expr)
  | cmp (c : Comparison)

namespace Expr

def eval : Expr → Event → Bool
  | and l r, e => l.eval e && r.eval e
  | or l r, e => l.eval e || r.eval e
  | not x, e => !x.eval e
  | cmp c, e => c.eval e

def comparisons : Expr → List Comparison
  | and l r => l.comparisons ++ r.comparisons
  | or l r => l.comparisons ++ r.comparisons
  | not x => x.comparisons
  | cmp c => [c]

mutual
def toCond : Expr → Condition
  | and l r => .allOf (flattenAnd l ++ flattenAnd r)
  | or l r => .anyOf (flattenOr l ++ flattenOr r)
  | not x => .notOf (toCond x)
  | cmp c => c.toCond

/-- `flatten` at `and`: the operands of a chain of `and`s, and any other expression alone. -/
def flattenAnd : Expr → List Condition
  | and l r => flattenAnd l ++ flattenAnd r
  | or l r => [.anyOf (flattenOr l ++ flattenOr r)]
  | not x => [.notOf (toCond x)]
  | cmp c => [c.toCond]

def flattenOr : Expr → List Condition
  | or l r => flattenOr l ++ flattenOr r
  | and l r => [.allOf (flattenAnd l ++ flattenAnd r)]
  | not x => [.notOf (toCond x)]
  | cmp c => [c.toCond]
end

end Expr

/-! ## Queries -/

structure ClassRef where
  action : String := ""
  all : Bool := false
deriving Repr, DecidableEq

def ClassRef.matches (c : ClassRef) (e : Event) : Bool := c.all || e.action = c.action

structure Pipe where
  filter : Option Expr := none
  limit : ℤ := 0
  hasLimit : Bool := false

structure SimpleQuery where
  cls : ClassRef
  filter : Option Expr := none
  pipes : List Pipe := []

structure Stage where
  cls : ClassRef
  filter : Option Expr := none

/-- A temporal chain; `within` is zero for no window. -/
structure SequenceQuery where
  byField : String := ""
  within : Model.Time := 0
  stages : List Stage

inductive Query where
  | simple (q : SimpleQuery)
  | sequence (q : SequenceQuery)

def passes (filter : Option Expr) (e : Event) : Bool := filter.all fun x => x.eval e

def filterEvents (events : List Event) (filter : Option Expr) : List Event :=
  match filter with
  | none => events
  | some x => events.filter x.eval

def lastLimit (pipes : List Pipe) : ℤ :=
  pipes.foldl (fun limit p => if p.hasLimit then p.limit else limit) 0

/-- `runSimple`, from the events of the query's class that the lake returns. -/
def SimpleQuery.select (q : SimpleQuery) (events : List Event) : List Event :=
  let kept := q.pipes.foldl (fun es p => filterEvents es p.filter) (filterEvents events q.filter)
  let limit := lastLimit q.pipes
  if limit > 0 then kept.take limit.toNat else kept

/-- An event is of the query's class and passes its `where` and those of its pipes. -/
def SimpleQuery.satisfies (q : SimpleQuery) (e : Event) : Bool :=
  q.cls.matches e && passes q.filter e && q.pipes.all fun p => passes p.filter e

def SimpleQuery.comparisons (q : SimpleQuery) : List Comparison :=
  ((q.filter.toList ++ q.pipes.filterMap Pipe.filter).map Expr.comparisons).flatten

/-! ## Rules from queries -/

structure RuleMeta where
  id : String
  name : String
  description : String := ""
  severity : String
  riskScore : ℤ := 0
  response : String := ""
  technique : Model.Technique := {}

def SimpleQuery.conds (q : SimpleQuery) : List Condition :=
  (if q.cls.all then [] else [.leaf "event.type" "eq" (.str q.cls.action)]) ++
    (q.filter.toList ++ q.pipes.filterMap Pipe.filter).map Expr.toCond

/-- `matchTree`: one condition is emitted bare, several as an `all` group, and none as a
match on anything. -/
def SimpleQuery.matchTree (q : SimpleQuery) : Condition :=
  match q.conds with
  | [] => .leaf "event.action" "exists" .null
  | [c] => c
  | cs => .allOf cs

/-- `ToRule`: the document that is marshalled into the rule file. -/
def toRule (q : Query) (info : RuleMeta) : Except Go.Error Detect.RuleDoc :=
  match q with
  | .sequence _ => .error (.errorf
      "a sequence hunt cannot become a single rule; save its first stage or use correlation" [])
  | .simple q =>
    if info.id = "" ∨ info.name = "" then .error (.errorf "a rule needs an id and a name" [])
    else .ok
      { id := info.id
        name := info.name
        description := info.description
        severity := info.severity
        technique := info.technique
        riskScore := info.riskScore
        response := info.response
        condition := some q.matchTree }

end ArgusEdr.Hunt
