import ArgusEdr.Lib.Reading
import ArgusEdr.Yara.Scan

/-!
# Compiling signatures (`internal/yara/compile.go`)

A recursive-descent parser over the bytes of the source, with a position and no lexer. The loops of
the source are `forever`, of which each round reads something; `parseUnary` is given the number of
times it may call itself, which is more than there are bytes left.

A position can be past the end, behind a comment that is not closed; cutting an identifier out there
is the panic of a slice out of range.
-/

namespace ArgusEdr.Yara

open Go (Bytes)
open Reading

abbrev Parser (α : Type) := Reader UInt8 Go.Error α

def byte (c : Char) : UInt8 := UInt8.ofNat c.toNat

/-- Bytes as `%q` and `%c` are given them: identifiers, and single bytes. -/
def shown (bytes : Bytes) : String := String.ofList (bytes.map fun b => Char.ofNat b.toNat)

/-! ## The cursor -/

/-- `peekChar`: zero at the end. -/
def peekChar : Parser UInt8 := do return (← look 0).getD 0

def errf {α : Type} (format : String) (args : List String) : Parser α := fun p =>
  .error (.err (.errorf ("yara: " ++ format ++ " (at offset %d)") (args ++ [Go.formatUint p.pos])))

def isBlank (c : UInt8) : Bool :=
  c = byte ' ' ∨ c = byte '\t' ∨ c = byte '\n' ∨ c = byte '\r'

/-- How far the loop of `skipSpace` goes, which passes a byte at least in every round. -/
def spaceLength : ℕ → Bytes → ℕ
  | 0, _ => 0
  | _ + 1, [] => 0
  | n + 1, c :: after =>
    if isBlank c then 1 + spaceLength n after
    else if c = byte '/' ∧ after.head? = some (byte '/') then
      let line := runLength (fun ahead => ahead.head? ≠ some (byte '\n')) (c :: after)
      line + spaceLength n ((c :: after).drop line)
    else if c = byte '/' ∧ after.head? = some (byte '*') then
      let inner := runLength
        (fun ahead => ahead.head? ≠ some (byte '*') ∨ ahead[1]? ≠ some (byte '/')) (after.drop 1)
      -- the closing mark is passed whether it is there or not
      let comment := 2 + inner + 2
      comment + spaceLength n ((c :: after).drop comment)
    else 0

def skipSpace : Parser Unit := skipBy fun rest => spaceLength rest.length rest

def isAlpha (c : UInt8) : Bool :=
  c = byte '_' ∨ (byte 'a' ≤ c ∧ c ≤ byte 'z') ∨ (byte 'A' ≤ c ∧ c ≤ byte 'Z')

def isDigit (c : UInt8) : Bool := byte '0' ≤ c ∧ c ≤ byte '9'

def identLength (first : Bool) : Bytes → ℕ
  | [] => 0
  | c :: rest => if isAlpha c || (!first && isDigit c) then identLength false rest + 1 else 0

def parseIdent : Parser Bytes := do
  let start ← tell
  skipBy (identLength true)
  cut start

def acceptKeyword (kw : String) : Parser Bool := do
  let save ← tell
  skipSpace
  let word ← parseIdent
  if word = Go.ascii kw then return true
  else
    seek save
    return false

def atSectionHeader : Parser Bool := do
  let save ← tell
  skipSpace
  let id ← parseIdent
  skipSpace
  let c ← peekChar
  seek save
  return id ≠ [] ∧ c = byte ':'

/-! ## Literals -/

def parseStringID : Parser Bytes := do
  let start ← tell
  skip 1
  let _ ← parseIdent
  cut start

def hexVal (c : UInt8) : Option ℕ :=
  if byte '0' ≤ c ∧ c ≤ byte '9' then some (c - byte '0').toNat
  else if byte 'a' ≤ c ∧ c ≤ byte 'f' then some ((c - byte 'a').toNat + 10)
  else if byte 'A' ≤ c ∧ c ≤ byte 'F' then some ((c - byte 'A').toNat + 10)
  else none

def peekHex : Parser (Option UInt8) := do
  let hi ← look 0
  let lo ← look 1
  return do
    let hi ← hi.bind hexVal
    let lo ← lo.bind hexVal
    return UInt8.ofNat (hi <<< 4 ||| lo)

def parseEscape : Parser UInt8 := do
  match ← look 0 with
  | none => errf "dangling escape" []
  | some c =>
    skip 1
    if c = byte 'n' then return byte '\n'
    else if c = byte 't' then return byte '\t'
    else if c = byte 'r' then return byte '\r'
    else if c = byte '\\' then return byte '\\'
    else if c = byte '"' then return byte '"'
    else if c = byte 'x' then
      match ← peekHex with
      | none => errf "bad \\x escape" []
      | some b =>
        skip 2
        return b
    else errf "unknown escape \\%c" [shown [c]]

def stringRound (out : Bytes) : Parser (Bytes ⊕ Bytes) := do
  match ← look 0 with
  | none => errf "unterminated string" []
  | some c =>
    skip 1
    if c = byte '"' then return .inr out
    else if c = byte '\\' then
      let esc ← parseEscape
      return .inl (out ++ [esc])
    else return .inl (out ++ [c])

def parseString : Parser Bytes := do
  skip 1
  forever stringRound []

def hexRound (out : List HexByte) : Parser (List HexByte ⊕ List HexByte) := do
  skipSpace
  match ← look 0 with
  | none => errf "unterminated hex string" []
  | some c =>
    if c = byte '}' then
      skip 1
      return .inr out
    else if c = byte '?' then
      if (← look 1) ≠ some (byte '?') then
        errf "only full-byte '??' wildcards are supported" []
      else
        skip 2
        return .inl (out ++ [{ wild := true }])
    else
      match ← peekHex with
      | none => errf "invalid hex byte" []
      | some value =>
        skip 2
        return .inl (out ++ [{ value := value }])

def parseHex : Parser (List HexByte) := do
  skip 1
  forever hexRound []

def parseBareWord : Parser Bytes := do
  let start ← tell
  skipBy (runLength fun ahead => !ahead.head?.any isBlank)
  cut start

def bytesToHex (bytes : Bytes) : List HexByte := bytes.map fun value => { value }

/-! ## Conditions -/

def parseNumber : Parser Int64 := fun p =>
  let digits := p.rest.takeWhile isDigit
  let n := digits.foldl (fun n c => n * 10 + Int64.ofNat (c - byte '0').toNat) 0
  .ok (n, p.advance digits.length)

def parseQuantifier (need : Int64) : Parser Condition := do
  if !(← acceptKeyword "of") then errf "expected 'of'" []
  else if !(← acceptKeyword "them") then errf "expected 'them' (only 'of them' is supported)" []
  else return .quantNode need

def parseAnd (parseUnary : Parser Condition) : Parser Condition :=
  chain (acceptKeyword "and") parseUnary .andNode

def parseOr (parseUnary : Parser Condition) : Parser Condition :=
  chain (acceptKeyword "or") (parseAnd parseUnary) .orNode

def parsePrimary (parseOr : Parser Condition) : Parser Condition := do
  skipSpace
  let c ← peekChar
  if c = byte '(' then
    skip 1
    let inner ← parseOr
    skipSpace
    if (← peekChar) ≠ byte ')' then errf "expected ')'" []
    else
      skip 1
      return inner
  else if c = byte '$' then return .identNode (← parseStringID)
  else if isDigit c then parseQuantifier (← parseNumber)
  else
    let word ← parseIdent
    if word = Go.ascii "true" then return .boolNode true
    else if word = Go.ascii "false" then return .boolNode false
    else if word = Go.ascii "all" then parseQuantifier (-1)
    else if word = Go.ascii "any" then parseQuantifier 0
    else errf "unexpected token %q in condition" [shown word]

def parseUnary : ℕ → Parser Condition
  | 0 => fun _ => .error .outOfFuel
  | depth + 1 => do
    if ← acceptKeyword "not" then return .notNode (← parseUnary depth)
    else parsePrimary (parseOr (parseUnary depth))

def parseCondition : Parser Condition := fun p => parseOr (parseUnary (p.rest.length + 1)) p

/-! ## Rules -/

/-- A rule in the making, which has no condition at first. -/
structure Draft where
  metadata : List (Bytes × Bytes) := []
  patterns : List Pattern := []
  cond : Option Condition := none
deriving DecidableEq

def Draft.setMeta (r : Draft) (key value : Bytes) : Draft :=
  { r with metadata := (key, value) :: r.metadata.filter fun entry => entry.1 ≠ key }

def metaRound (r : Draft) : Parser (Draft ⊕ Draft) := do
  if ← atSectionHeader then return .inr r
  else
    skipSpace
    if (← peekChar) = byte '}' then return .inr r
    else
      let key ← parseIdent
      if key = [] then errf "expected meta key" []
      else
        skipSpace
        if (← peekChar) ≠ byte '=' then errf "expected '=' after meta key %q" [shown key]
        else
          skip 1
          skipSpace
          if (← peekChar) = byte '"' then return .inl (r.setMeta key (← parseString))
          else return .inl (r.setMeta key (← parseBareWord))

def parseMeta : Draft → Parser Draft := forever metaRound

def modifierRound (nocase : Bool) : Parser (Bool ⊕ Bool) := do
  let save ← tell
  skipSpace
  let word ← parseIdent
  if word = Go.ascii "nocase" then return .inl true
  else if word ∈ ["ascii", "wide", "fullword", "private"].map Go.ascii then return .inl nocase
  else
    seek save
    return .inr nocase

def parseStringModifiers : Parser Bool := forever modifierRound false

def parsePattern (id : Bytes) : Parser Pattern := do
  let c ← peekChar
  if c = byte '"' then
    let text ← parseString
    let nocase ← parseStringModifiers
    return { id, text := true, bytes := bytesToHex text, nocase }
  else if c = byte '\x7b' then return { id, bytes := ← parseHex }
  else errf "expected a \"text\" or \x7b hex \x7d value for %s" [shown id]

def stringsRound (r : Draft) : Parser (Draft ⊕ Draft) := do
  if ← atSectionHeader then return .inr r
  else
    skipSpace
    let c ← peekChar
    if c = byte '}' then return .inr r
    else if c ≠ byte '$' then errf "expected a $string identifier" []
    else
      let id ← parseStringID
      skipSpace
      if (← peekChar) ≠ byte '=' then errf "expected '=' after %s" [shown id]
      else
        skip 1
        skipSpace
        let pat ← parsePattern id
        if pat.bytes.length = 0 then errf "empty pattern %s" [shown id]
        else return .inl { r with patterns := r.patterns ++ [pat] }

def parseStrings : Draft → Parser Draft := forever stringsRound

def parseTags : Parser Unit :=
  forever
    (fun _ => do
      skipSpace
      if (← peekChar) = byte '\x7b' then return .inr ()
      else if (← parseIdent) = [] then return .inr ()
      else return .inl ())
    ()

def sectionRound (name : Bytes) (r : Draft) : Parser (Draft ⊕ Draft) := do
  skipSpace
  match ← look 0 with
  | some c =>
    if c = byte '}' then
      skip 1
      return .inr r
    else
      let header ← parseIdent
      skipSpace
      if (← peekChar) ≠ byte ':' then errf "expected ':' after section %q" [shown header]
      else
        skip 1
        if header = Go.ascii "meta" then return .inl (← parseMeta r)
        else if header = Go.ascii "strings" then return .inl (← parseStrings r)
        else if header = Go.ascii "condition" then
          return .inl { r with cond := some (← parseCondition) }
        else errf "unknown section %q" [shown header]
  | none => errf "unterminated rule %q" [shown name]

def parseRule : Parser Rule := do
  if !(← acceptKeyword "rule") then errf "expected 'rule'" []
  else
    skipSpace
    let name ← parseIdent
    if name = [] then errf "expected rule name" []
    else
      skipSpace
      if (← peekChar) = byte ':' then
        skip 1
        parseTags
      skipSpace
      if (← peekChar) ≠ byte '\x7b' then errf "expected '\x7b' to open rule %q" [shown name]
      else
        skip 1
        let r ← forever (sectionRound name) {}
        match r.cond with
        | none => errf "rule %q has no condition" [shown name]
        | some cond => return { name, metadata := r.metadata, patterns := r.patterns, cond }

def compileRound (rules : List Rule) : Parser (List Rule ⊕ List Rule) := do
  skipSpace
  if (← look 0) = none then return .inr rules
  else return .inl (rules ++ [← parseRule])

def compile (source : Bytes) : Except (Parsing.Halt Go.Error) Engine := do
  let rules ← (forever compileRound []).run' { src := source }
  if rules.length = 0 then throw (.err (.errorf "yara: no rules found" []))
  else return { rules }

example : (compile (Go.ascii "rule a { condition: true } /*")).toOption.map Engine.rules =
    some [{ name := Go.ascii "a", cond := .boolNode true }] := by
  decide +kernel

end ArgusEdr.Yara
