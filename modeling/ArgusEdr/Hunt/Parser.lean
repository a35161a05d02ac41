import ArgusEdr.Go.Strconv
import ArgusEdr.Hunt.Lexer
import ArgusEdr.Hunt.Query
import ArgusEdr.Lib.Parsing

/-!
# The ARQL parser (`internal/hunt/parse.go`)

A recursive-descent parser over the tokens. The state is the tokens from the parser's position on;
`peek` and `next` on none left is the index out of range the source would panic with. The recursion of
`parseUnary` counts its depth; going deeper than the fuel ends the parser with `outOfFuel`.

    query     := sequence | simple
    simple    := class ("where" expr)? ("|" pipe)*
    sequence  := "sequence" ("by" field)? ("within" duration)? ":" stage (";" stage)+
    stage     := class ("where" expr)?
    pipe      := "where" expr | "limit" int
    expr      := or ; or := and ("or" and)* ; and := unary ("and" unary)*
    unary     := "not" unary | "(" expr ")" | comparison
    comparison:= field (op value | "in" "(" value ("," value)* ")")
-/

namespace ArgusEdr.Hunt

open Go (Library Classes)
open Parsing (Halt Parser peek next fail outOfFuel loop chain)

variable [Library]

abbrev P (α : Type) := Parser Token Go.Error α

def isKeyword (word : String) : P Bool := do
  let t ← peek
  return t.kind = .ident && t.text = word

/-- `if p.isKeyword(word) { p.next() … }`: whether the keyword was there, and is read now. -/
def accept (word : String) : P Bool := do
  if ← isKeyword word then
    let _ ← next
    return true
  else return false

/-- `if p.peek().kind == kind { p.next() … }`. -/
def acceptKind (kind : TokenKind) : P Bool := do
  if (← peek).kind = kind then
    let _ ← next
    return true
  else return false

/-- `if p.peek().kind != kind { return fmt.Errorf(format, p.peek().text) }; p.next()`. -/
def expect (kind : TokenKind) (format : String) : P Token := do
  let t ← peek
  if t.kind ≠ kind then fail (.errorf format [t.text]) else next

/-! ## Comparisons -/

def parseField : P String := do
  let field ← expect .ident "expected a field name, got %q"
  if ¬Model.knownField field.text then fail (.errorf "unknown field %q" [field.text])
  else return field.text

def opOfSymbol (text : String) : Option Op :=
  [("==", .eq), ("!=", .ne), (">", .gt), ("<", .lt), (">=", .ge), ("<=", .le),
    ("=~", .regex)].lookup text

def opOfWord (text : String) : Option Op :=
  [("contains", .contains), ("startswith", .startswith), ("endswith", .endswith)].lookup text

/-- The operator a token stands for. The lexer makes no operator token but those of
`opOfSymbol`. -/
def Token.operator (t : Token) : Option Op :=
  match t.kind with
  | .op => opOfSymbol t.text
  | .ident => opOfWord t.text
  | _ => none

def parseOperator : P Op := do
  let t ← peek
  match t.operator with
  | none => fail (.errorf "expected a comparison operator, got %q" [t.text])
  | some op =>
    let _ ← next
    return op

def parseValue : P Literal := do
  let t ← next
  match t.kind with
  | .string | .ident => return .text t.text
  | .number =>
    match Library.parseFloat t.text with
    | none => fail (.wrapf "invalid number %q: %w" [t.text] (Go.parseFloatError t.text))
    | some num => return .number t.text num
  | _ => fail (.errorf "expected a value, got %q" [t.text])

def parseIn (field : String) : P Expr := do
  let _ ← expect .lparen "expected '(' after 'in', got %q"
  let values ← chain (acceptKind .comma) parseValue (fun v => [v]) fun vs v => vs ++ [v]
  let _ ← expect .rparen "expected ')' to close 'in' list, got %q"
  return .cmp { field, op := .isIn, values }

def parseComparison : P Expr := do
  let field ← parseField
  if ← accept "in" then parseIn field
  else
    let op ← parseOperator
    let value ← parseValue
    if op = .regex then
      match Library.regexp value.str with
      | .error err => fail (.wrapf "invalid regular expression %q: %w" [value.str] err)
      | .ok _ => return .cmp { field, op, value }
    else return .cmp { field, op, value }

/-! ## Expressions -/

section
variable (parseUnary : P Expr)

def parseAnd : P Expr := chain (accept "and") parseUnary id Expr.and

def parseOr : P Expr := chain (accept "or") (parseAnd parseUnary) id Expr.or

end

def parseUnary : ℕ → P Expr
  | 0 => outOfFuel
  | fuel + 1 => do
    if ← accept "not" then return .not (← parseUnary fuel)
    else if ← acceptKind .lparen then
      let inner ← parseOr (parseUnary fuel)
      let _ ← expect .rparen "expected ')', got %q"
      return inner
    else parseComparison

def parseExpr (fuel : ℕ) : P Expr := parseOr (parseUnary fuel)

/-! ## Queries -/

def parseClass : P ClassRef := do
  let name ← expect .ident "expected an event class, got %q"
  if name.text = "event" ∨ name.text = "any" then return { all := true }
  else return { action := name.text }

def parseWhere (fuel : ℕ) : P (Option Expr) := do
  if ← accept "where" then return some (← parseExpr fuel) else return none

def parsePipe (fuel : ℕ) : P Pipe := do
  if ← accept "where" then return { filter := some (← parseExpr fuel) }
  else if ← accept "limit" then
    let t ← expect .number "limit expects a number, got %q"
    match Go.atoi t.text with
    | .error err => fail (.wrapf "invalid limit: %w" [] err)
    | .ok limit => return { limit, hasLimit := true }
  else
    let t ← peek
    fail (.errorf "expected 'where' or 'limit' after '|', got %q" [t.text])

def parseSimple (fuel : ℕ) : P SimpleQuery := do
  let cls ← parseClass
  let filter ← parseWhere fuel
  let pipes ← loop (acceptKind .pipe) (parsePipe fuel) (fun pipes pipe => pipes ++ [pipe]) []
  return { cls, filter, pipes }

def parseStage (fuel : ℕ) : P Stage := do
  let cls ← parseClass
  let filter ← parseWhere fuel
  return { cls, filter }

/-- `parseDuration`: a duration token, or a bare number of seconds. -/
def parseDuration : P Model.Time := do
  let t ← next
  match t.kind with
  | .duration =>
    match Go.parseDuration t.text with
    | .error err => fail err
    | .ok d => return d
  | .number =>
    match Go.atoi t.text with
    | .error err => fail (.wrapf "invalid duration %q: %w" [t.text] err)
    -- time.Duration(secs) * time.Second wraps
    | .ok secs => return (secs * 1000000000).bmod (2 ^ 64)
  | _ => fail (.errorf "expected a duration (e.g. 5m), got %q" [t.text])

def parseBy : P String := do
  if ← accept "by" then parseField else return ""

def parseWithin : P Model.Time := do
  if ← accept "within" then parseDuration else return 0

def parseSequence (fuel : ℕ) : P SequenceQuery := do
  let byField ← parseBy
  let within ← parseWithin
  let _ ← expect .colon "expected ':' before sequence stages, got %q"
  let stages ← chain (acceptKind .semicolon) (parseStage fuel) (fun st => [st])
    fun sts st => sts ++ [st]
  if stages.length < 2 then
    fail (.errorf "a sequence needs at least two stages separated by ';'" [])
  else return { byField, within, stages }

def parseQuery (fuel : ℕ) : P Query := do
  if ← accept "sequence" then return .sequence (← parseSequence fuel)
  else return .simple (← parseSimple fuel)

/-- The part of `parse` behind the lexer: a query, and nothing behind it. -/
def parseAll (fuel : ℕ) : P Query := do
  let query ← parseQuery fuel
  let t ← peek
  if t.kind ≠ .eof then fail (.errorf "unexpected %q after query" [t.text]) else return query

def parseTokens (fuel : ℕ) (tokens : List Token) : Except (Halt Go.Error) Query :=
  ((parseAll fuel).run tokens).map Prod.fst

def compile (cls : Classes) (source : String) : Except (Halt Go.Error) Query :=
  match lex cls source.toList with
  | .error e => .error (.err e)
  | .ok tokens => parseTokens tokens.length tokens

end ArgusEdr.Hunt
