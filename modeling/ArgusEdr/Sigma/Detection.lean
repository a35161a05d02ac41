import ArgusEdr.Sigma.Condition

/-!
# The detection block of a Sigma rule (`internal/sigma/detection.go`, `mapping.go`)

Every key of the block but `condition` is a selection: a map of fields to values, or a list of
such maps. `compileSelection` turns a selection into a match tree over the fields of the
detection engine, and `compileDetection` combines the trees as the condition says.

YAML is seen as the decoder's node tree. What `Node.Decode` makes of a node is a parameter
(`Decoding`). A Go map is the list of its entries, in the order one run iterates over it.
-/

namespace ArgusEdr.Sigma

open Go (Library Unicode Error)
open Detect (Condition Value)
open Parsing (Halt)

inductive NodeKind where
  | document | sequence | mapping | scalar | alias
deriving Repr, DecidableEq

structure Node where
  kind : NodeKind
  tag : String := ""
  value : String := ""
  content : List Node := []

def sigmaFields : List (String × String) :=
  [("image", "process.executable"),
   ("originalfilename", "process.name"),
   ("commandline", "process.command_line"),
   ("parentimage", "process.parent.executable"),
   ("parentprocessname", "process.parent.name"),
   ("user", "user.name"),
   ("username", "user.name"),
   ("processid", "process.pid"),
   ("parentprocessid", "process.ppid"),
   ("sha256", "process.hash.sha256"),
   ("destinationip", "destination.ip"),
   ("destinationport", "destination.port"),
   ("sourceip", "source.ip"),
   ("sourceport", "source.port"),
   ("destinationhostname", "dns.question.name"),
   ("query", "dns.question.name"),
   ("queryname", "dns.question.name"),
   ("targetfilename", "file.path"),
   ("filename", "file.path")]

/-- `Node.Decode` into a string, into a list of strings and into an `any`. Of the first two only
the value is used. -/
structure Decoding [Library] where
  string : Node → Option String
  strings : Node → Option (List String)
  any : Node → Except Error Value

/-- The decoder on scalars that are texts, integers or null and on lists of texts, for concrete
runs. -/
def Decoding.plain [Library] : Decoding where
  string := fun node =>
    if node.kind = .scalar then some (if node.tag = "!!null" then "" else node.value) else none
  strings := fun node =>
    if node.kind = .sequence then some (node.content.map Node.value) else none
  any := fun node =>
    if node.tag = "!!null" then .ok .null
    else if node.tag = "!!int" then
      match Go.parseInt64 node.value with
      | some n => .ok (.int (Int64.ofInt n))
      | none => .ok (.str node.value)
    else .ok (.str node.value)

section
variable (u : Unicode)

def argusField (name : String) : Option String := sigmaFields.lookup (Go.toLower u name)

/-! ## Modifiers and wildcards -/

/-- One modifier: the operator so far and whether `|all` was among them. -/
def addModifier (state : String × Bool) (modifier : String) : Except Error (String × Bool) :=
  let lower := Go.toLower u modifier
  if lower = "all" then .ok (state.1, true)
  else if lower = "contains" ∨ lower = "startswith" ∨ lower = "endswith" then .ok (lower, state.2)
  else if lower = "re" then .ok ("regex", state.2)
  else if lower = "cidr" then .ok ("cidr", state.2)
  else if lower = "gt" ∨ lower = "lt" then .ok (lower, state.2)
  else if lower = "gte" then .ok ("ge", state.2)
  else if lower = "lte" then .ok ("le", state.2)
  else .error (unsupported "value modifier %q" [modifier])

/-- `modifierOp`: the explicit operator, empty if there is none, and whether every value of a
list has to match. -/
def modifierOp (modifiers : List String) : Except Error (String × Bool) :=
  modifiers.foldlM (addModifier u) ("", false)

def wildcardToRegex (pattern : String) : String :=
  String.ofList (['^'] ++ pattern.toList.flatMap (fun c =>
    if c = '*' then ['.', '*']
    else if c = '?' then ['.']
    else if c ∈ "\\.+()|[]\x7b\x7d^$".toList then ['\\', c]
    else [c]) ++ ['$'])

/-- `inferStringOp`: the operator Sigma wildcards stand for, and the value without them. -/
def inferStringOp (value : String) : String × String :=
  let hasLeading := Go.startsWith value "*"
  let hasTrailing := Go.hasSuffix value "*"
  let core := Go.trim value '*'
  if Go.containsAny core "*?" then ("regex", wildcardToRegex value)
  else if hasLeading && hasTrailing then ("contains", core)
  else if hasLeading then ("endswith", core)
  else if hasTrailing then ("startswith", core)
  else ("eq", value)

variable [Library]

/-! ## Fields -/

def validateOperatorValue (op : String) (value : Value) : Except Error Unit :=
  if op = "regex" then
    match Library.regexp (Detect.toString value) with
    | .error err => .error (.wrapf "invalid regex %q: %w" [Detect.toString value] err)
    | .ok _ => .ok ()
  else if op = "cidr" then
    match Library.cidr (Detect.toString value) with
    | .error err => .error (.wrapf "invalid cidr %q: %w" [Detect.toString value] err)
    | .ok _ => .ok ()
  else .ok ()

/-- The operator and the value of a leaf: without an explicit operator they come from the
wildcards of a text, and any other value is compared as it is. -/
def leafParts (op : String) (value : Value) : String × Value :=
  if op = "" then
    match value with
    | .str text => ((inferStringOp text).1, .str (inferStringOp text).2)
    | _ => ("eq", value)
  else (op, value)

def valueLeaf (field op : String) (value : Value) : Except Error Condition := do
  let (op, value) := leafParts op value
  validateOperatorValue op value
  return .leaf field op value

variable (d : Decoding)

def scalarValue (node : Node) : Except Error Value :=
  match d.any node with
  | .error err => .error (.wrapf "decode value: %w" [] err)
  | .ok value => .ok value

def decodeValues (node : Node) : Except Error (List Value) :=
  if node.kind = .sequence then node.content.mapM (scalarValue d)
  else if node.tag = "!!null" then .ok []
  else do return [← scalarValue d node]

/-- `fieldCondition`: one entry `Field|modifiers: value(s)`. -/
def fieldCondition (rawKey : String) (valueNode : Node) : Except Error Condition := do
  let parts := Go.split rawKey '|'
  match argusField u (parts.headD "") with
  | none => .error (unsupported "field %q" [parts.headD ""])
  | some field =>
    let (op, requireAll) ← modifierOp u parts.tail
    let values ← decodeValues d valueNode
    if values.isEmpty then
      .error (unsupported "null/empty value for field %q" [parts.headD ""])
    else
      let leaves ← values.mapM (valueLeaf field op)
      return if requireAll then allOf leaves else anyOf leaves

/-! ## Selections -/

def entries : List Node → List (String × Node)
  | key :: value :: rest => (key.value, value) :: entries rest
  | _ => []

def selectionMap (node : Node) : Except Error Condition := do
  let sorted := (entries node.content).insertionSort fun a b => a.1 ≤ b.1
  let leaves ← sorted.mapM fun entry => fieldCondition u d entry.1 entry.2
  if leaves.isEmpty then .error (.errorf "empty selection" []) else return allOf leaves

def alternative (item : Node) : Except Error Condition :=
  if item.kind ≠ .mapping then .error (unsupported "keyword (full-text) selections" [])
  else selectionMap u d item

def compileSelection (node : Node) : Except Error Condition :=
  match node.kind with
  | .mapping => selectionMap u d node
  | .sequence => do return anyOf (← node.content.mapM (alternative u d))
  | _ => .error (unsupported "selection that is neither a map nor a list of maps" [])

/-! ## The block -/

omit u in
/-- `conditionExpression`: one expression, or a list of them that is joined by `or`. -/
def conditionExpression (node : Node) : Except Error String :=
  match d.string node with
  | some single => .ok single
  | none =>
    match d.strings node with
    | some (first :: rest) =>
      .ok (String.intercalate " or " ((first :: rest).map fun expression => "(" ++ expression ++ ")"))
    | _ => .error (.errorf "condition must be a string or a non-empty list of strings" [])

def namedSelection (entry : String × Node) : Except Error (String × Condition) :=
  match compileSelection u d entry.2 with
  | .error err => .error (.wrapf "selection %q: %w" [entry.1] err)
  | .ok selection => .ok (entry.1, selection)

def compileSelections (detection : List (String × Node)) :
    Except Error (List (String × Condition)) :=
  (detection.filter fun entry => entry.1 ≠ "condition").mapM (namedSelection u d)

/-- An error, among the ways a conversion can end. -/
def liftError {α : Type} : Except Error α → Except (Halt Error) α
  | .ok a => .ok a
  | .error e => .error (.err e)

def compileDetection (detection : List (String × Node)) : Except (Halt Error) Condition := do
  match detection.lookup "condition" with
  | none => .error (.err (.errorf "detection block has no condition" []))
  | some conditionNode =>
    let expression ← liftError (conditionExpression d conditionNode)
    let selections ← liftError (compileSelections u d detection)
    if selections.isEmpty then .error (.err (.errorf "detection block has no selections" []))
    else
      let names := (selections.map Prod.fst).insertionSort (· ≤ ·)
      parseCondition u selections names expression

end

end ArgusEdr.Sigma
