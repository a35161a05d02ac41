import ArgusEdr.Detect.Condition
import ArgusEdr.Go.Strconv
import ArgusEdr.Go.Strings
import ArgusEdr.Lib.Parsing

/-!
# Sigma condition expressions (`internal/sigma/condition.go`, `rule.go`)

`parseCondition` compiles the condition of a Sigma rule into a match tree in which a name stands for the
tree of its selection. The state of the parser is the tokens from its position on. At the end `peek`
returns the empty token, so no read is out of range; the recursion of `parseNot` through parentheses and
`not` counts its depth, and an expression that goes deeper than the fuel ends with `outOfFuel`.

    expression := and ("or" and)* ; and := not ("and" not)* ; not := "not" not | atom
    atom       := "(" expression ")" | quantifier "of" pattern | name
-/

namespace ArgusEdr.Sigma

open Go (Library Unicode)
open Detect (Condition)
open Parsing (Halt Parser fail outOfFuel chain)

def unsupported (reason : String) (args : List String) : Go.Error :=
  .errorf ("unsupported sigma feature: " ++ reason) args

section
variable [Library]

/-! ## Groups -/

/-- `allOf`: a single child is itself. -/
def allOf (children : List Condition) : Condition :=
  match children with
  | [child] => child
  | _ => .allOf children

def anyOf (children : List Condition) : Condition :=
  match children with
  | [child] => child
  | _ => .anyOf children

end

/-! ## Tokens -/

/-- Words, and parentheses as tokens of their own. -/
def tokenize (expression : String) : List String :=
  Go.fields (Go.replaceAll (Go.replaceAll expression '(' " ( ") ')' " ) ")

section
variable (u : Unicode)

def isQuantifier (token : String) : Bool :=
  Go.toLower u token = "all" || Go.toLower u token = "any" || (Go.atoi token).toBool

def patternMatches (name pattern : String) : Bool :=
  if Go.equalFold u pattern "them" then true
  else
    match Go.cutSuffix pattern "*" with
    | some start => Go.startsWith name start
    | none => name = pattern

/-! ## The parser -/

abbrev P (α : Type) := Parser String Go.Error α

/-- The next token, or the empty one at the end. -/
def peek : P String := fun tokens => .ok (tokens.headD "", tokens)

def advance : P String := do
  let token ← peek
  if token ≠ "" then modify List.tail
  return token

def consumeKeyword (keyword : String) : P Bool := do
  if Go.equalFold u (← peek) keyword then
    modify List.tail
    return true
  else return false

def consumeToken (token : String) : P Bool := do
  if (← peek) = token then
    modify List.tail
    return true
  else return false

variable [Library] (selections : List (String × Condition)) (names : List String)

def selectionsMatching (pattern : String) : List Condition :=
  (names.filter fun name => patternMatches u name pattern).filterMap fun name =>
    selections.lookup name

/-- `parseQuantifier`. A count above one cannot be expressed in a boolean tree. -/
def parseQuantifier : P Condition := do
  let quantifier := Go.toLower u (← advance)
  if ← consumeKeyword u "of" then
    let pattern ← advance
    if pattern = "" then fail (.errorf "expected a pattern after 'of' in condition" [])
    else
      let matched := selectionsMatching u selections names pattern
      if matched.isEmpty then
        fail (.errorf "condition pattern %q matched no selections" [pattern])
      else if quantifier = "all" then return allOf matched
      else if quantifier = "1" ∨ quantifier = "any" then return anyOf matched
      else fail (unsupported "quantifier %q of (only all/1/any are supported)" [quantifier])
  else fail (.errorf "expected 'of' after %q in condition" [quantifier])

/-- `collectTerms`: one operand, then `keyword operand` as long as the keyword follows. -/
def collectTerms (keyword : String) (operand : P Condition) : P (List Condition) :=
  chain (consumeKeyword u keyword) operand (fun term => [term]) fun terms term => terms ++ [term]

section
variable (parseNot : P Condition)

def parseAnd : P Condition := do return allOf (← collectTerms u "and" parseNot)

def parseOr : P Condition := do return anyOf (← collectTerms u "or" (parseAnd u parseNot))

def parseGroup : P Condition := do
  let _ ← advance
  let inner ← parseOr u parseNot
  if ← consumeToken ")" then return inner
  else fail (.errorf "missing closing parenthesis in condition" [])

def parseAtom : P Condition := do
  let token ← peek
  if token = "" then fail (.errorf "unexpected end of condition" [])
  else if token = "(" then parseGroup u parseNot
  else if isQuantifier u token then parseQuantifier u selections names
  else
    let _ ← advance
    match selections.lookup token with
    | none => fail (.errorf "condition references unknown selection %q" [token])
    | some selection => return selection

end

def parseNot : ℕ → P Condition
  | 0 => outOfFuel
  | fuel + 1 => do
    if ← consumeKeyword u "not" then return .notOf (← parseNot fuel)
    else parseAtom u selections names (parseNot fuel)

def parseExpression (fuel : ℕ) : P Condition := parseOr u (parseNot u selections names fuel)

/-- `parseCondition`. Every level of the recursion but the last reads a token. -/
def parseCondition (expression : String) : Except (Halt Go.Error) Condition :=
  let tokens := tokenize expression
  match (parseExpression u selections names (tokens.length + 1)).run tokens with
  | .error halt => .error halt
  | .ok (tree, []) => .ok tree
  | .ok (_, token :: _) =>
    .error (.err (.errorf "unexpected token %q in condition %q" [token, expression]))

end

example : tokenize "not (sel1 or sel2)and 1 of f*" =
    ["not", "(", "sel1", "or", "sel2", ")", "and", "1", "of", "f*"] := by
  decide

end ArgusEdr.Sigma
