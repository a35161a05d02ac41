import ArgusEdr.Go.Strconv
import ArgusEdr.Yara.Compile

/-!
# What signatures mean, and how they are written

A signature declares patterns and a condition. `Occurs` and `Holds` say what they mean, without
reference to how the engine searches; `print` writes signatures down in the syntax the compiler
reads, with a pair of parentheses only where an operator binds weaker than the one around it.
-/

namespace ArgusEdr.Yara

open Go (Bytes ascii)

/-! ## Signatures -/

def IsIdent : Bytes → Prop
  | [] => False
  | c :: cs => isAlpha c = true ∧ ∀ d ∈ cs, (isAlpha d || isDigit d) = true

instance : (w : Bytes) → Decidable (IsIdent w)
  | [] => .isFalse id
  | c :: cs =>
    inferInstanceAs (Decidable (isAlpha c = true ∧ ∀ d ∈ cs, (isAlpha d || isDigit d) = true))

/-- A text, or bytes some of which may be anything. -/
inductive Literal where
  | text (bytes : Bytes) (nocase : Bool)
  | hex (bytes : List (Option UInt8))

def Literal.length : Literal → ℕ
  | .text bytes _ => bytes.length
  | .hex bytes => bytes.length

/-- A pattern under its identifier, which is a dollar sign with or without a name. -/
structure Declaration where
  name : Bytes
  literal : Literal
  name_ident : name = [] ∨ IsIdent name := by decide +kernel
  literal_ne : literal.length ≠ 0 := by decide +kernel

/-- A condition. The number of patterns asked for is an `int` of the source. -/
inductive Expr where
  | ident (name : Bytes)
  | bool (v : Bool)
  | allOfThem
  | anyOfThem
  | ofThem (n : Int64)
  | not (e : Expr)
  | and (a b : Expr)
  | or (a b : Expr)

/-- The identifiers are declared, and no more patterns are asked for than there are. -/
def Expr.Scoped (strings : List Declaration) : Expr → Prop
  | .ident name => name ∈ strings.map Declaration.name
  | .bool _ | .allOfThem | .anyOfThem => True
  | .ofThem n => 1 ≤ n ∧ n.toInt ≤ strings.length
  | .not e => e.Scoped strings
  | .and a b | .or a b => a.Scoped strings ∧ b.Scoped strings

instance instDecidableScoped (strings : List Declaration) : (e : Expr) → Decidable (e.Scoped strings)
  | .ident name => inferInstanceAs (Decidable (name ∈ strings.map Declaration.name))
  | .bool _ | .allOfThem | .anyOfThem => .isTrue trivial
  | .ofThem n => inferInstanceAs (Decidable (1 ≤ n ∧ n.toInt ≤ strings.length))
  | .not e => instDecidableScoped strings e
  | .and a b | .or a b =>
    have := instDecidableScoped strings a
    have := instDecidableScoped strings b
    inferInstanceAs (Decidable (a.Scoped strings ∧ b.Scoped strings))

structure Signature where
  name : Bytes
  strings : List Declaration
  condition : Expr
  name_ident : IsIdent name := by decide +kernel
  strings_nodup : (strings.map Declaration.name).Nodup := by decide +kernel
  condition_scoped : condition.Scoped strings := by decide +kernel

/-! ## Meaning -/

def SameLetter (a b : UInt8) : Prop :=
  a = b ∨ (65 ≤ a ∧ a ≤ 90 ∧ b = a + 32) ∨ (65 ≤ b ∧ b ≤ 90 ∧ a = b + 32)

instance (a b : UInt8) : Decidable (SameLetter a b) := inferInstanceAs (Decidable (_ ∨ _))

def Literal.Fits (window : Bytes) : Literal → Prop
  | .text bytes false => window = bytes
  | .text bytes true => List.Forall₂ SameLetter bytes window
  | .hex bytes => List.Forall₂ (fun h b => ∀ v ∈ h, b = v) bytes window

def Declaration.Occurs (d : Declaration) (data : Bytes) : Prop :=
  ∃ before window after, data = before ++ (window ++ after) ∧ d.literal.Fits window

def Expr.Holds (strings : List Declaration) (data : Bytes) : Expr → Prop
  | .ident name => ∃ d ∈ strings, d.name = name ∧ d.Occurs data
  | .bool v => v = true
  | .allOfThem => ∀ d ∈ strings, d.Occurs data
  | .anyOfThem => ∃ d ∈ strings, d.Occurs data
  | .ofThem n =>
    ∃ found : List Declaration, found.Sublist strings ∧ n.toInt = found.length ∧
      ∀ d ∈ found, d.Occurs data
  | .not e => ¬e.Holds strings data
  | .and a b => a.Holds strings data ∧ b.Holds strings data
  | .or a b => a.Holds strings data ∨ b.Holds strings data

def Signature.Holds (s : Signature) (data : Bytes) : Prop := s.condition.Holds s.strings data

/-! ## Printing -/

def hexDigit (n : ℕ) : UInt8 := UInt8.ofNat (if n < 10 then 48 + n else 55 + n)

def hexPair (b : UInt8) : Bytes := [hexDigit (b.toNat / 16), hexDigit (b.toNat % 16)]

/-- A byte of a text. What is not printable is written as a number. -/
def escape (b : UInt8) : Bytes :=
  if b = byte '\n' then [byte '\\', byte 'n']
  else if b = byte '\t' then [byte '\\', byte 't']
  else if b = byte '\r' then [byte '\\', byte 'r']
  else if b = byte '\\' then [byte '\\', byte '\\']
  else if b = byte '"' then [byte '\\', byte '"']
  else if 32 ≤ b ∧ b ≤ 126 then [b]
  else byte '\\' :: byte 'x' :: hexPair b

def hexPosition : Option UInt8 → Bytes
  | none => [byte '?', byte '?']
  | some v => hexPair v

def Literal.print : Literal → Bytes
  | .text bytes nocase =>
    byte '"' :: (bytes.flatMap escape ++ (byte '"' :: if nocase then ascii " nocase" else []))
  | .hex bytes =>
    byte '\x7b' :: (bytes.flatMap (fun h => byte ' ' :: hexPosition h) ++ ascii " \x7d")

def Declaration.id (d : Declaration) : Bytes := byte '$' :: d.name

def Declaration.print (d : Declaration) : Bytes := d.id ++ (ascii " = " ++ d.literal.print)

/-- Parentheses, where they are needed. -/
def enclose (needed : Bool) (text : Bytes) : Bytes :=
  if needed then byte '(' :: (text ++ [byte ')']) else text

/-- A condition at a place that operators of at least this level can stand at: `or` has level 0,
`and` 1, and everything else 2. -/
def Expr.print (level : ℕ) : Expr → Bytes
  | .ident name => byte '$' :: name
  | .bool v => ascii (if v then "true" else "false")
  | .allOfThem => ascii "all of them"
  | .anyOfThem => ascii "any of them"
  | .ofThem n => ascii (Go.formatUint n.toNatClampNeg) ++ ascii " of them"
  | .not e => ascii "not " ++ e.print 2
  | .and a b => enclose (1 < level) (a.print 1 ++ (ascii " and " ++ b.print 1))
  | .or a b => enclose (0 < level) (a.print 0 ++ (ascii " or " ++ b.print 0))

def printStrings (strings : List Declaration) : Bytes :=
  if strings = [] then []
  else
    ascii "\n  strings:" ++ strings.flatMap fun d => ascii "\n    " ++ d.print

def Signature.print (s : Signature) : Bytes :=
  ascii "rule " ++ (s.name ++ (ascii " \x7b" ++ (printStrings s.strings ++
    (ascii "\n  condition:\n    " ++ (s.condition.print 0 ++ ascii "\n\x7d")))))

def print (signatures : List Signature) : Bytes :=
  signatures.flatMap fun s => s.print ++ ascii "\n"

end ArgusEdr.Yara
