import ArgusEdr.Go.Unicode
import ArgusEdr.Lib.Fallible

/-!
# The ARQL lexer (`internal/hunt/parse.go`)

`lex` cuts a query into tokens and puts an end marker behind them. A source text is the list of
its characters, what is left of it takes the place of the position in the source.
-/

namespace ArgusEdr.Hunt

open List

open Fallible (map_eq_ok)
open Go (Classes)

inductive TokenKind where
  | eof | ident | string | number | duration | op | pipe | lparen | rparen | comma | colon
  | semicolon
deriving Repr, DecidableEq

structure Token where
  kind : TokenKind
  text : String
deriving Repr, DecidableEq

def Token.eof : Token := ⟨.eof, ""⟩

section
variable (cls : Classes)

def isIdentStart (c : Char) : Bool := cls.isLetter c || c == '_'

def isIdentPart (c : Char) : Bool := cls.isLetter c || cls.isDigit c || c == '_' || c == '.'

def isNumberPart (c : Char) : Bool := cls.isDigit c || c == '.'

def isDurationUnit (c : Char) : Bool := c == 's' || c == 'm' || c == 'h' || c == 'd'

/-- `lexString`, behind the opening quote: the text up to the closing one, and the rest. A
backslash stands for the character behind it. -/
def lexString (quote : Char) : List Char → Except Go.Error (List Char × List Char)
  | [] => .error (.errorf "unterminated string literal" [])
  | '\\' :: c :: cs => (lexString quote cs).map fun r => (c :: r.1, r.2)
  | c :: cs =>
    if c = quote then .ok ([], cs)
    else (lexString quote cs).map fun r => (c :: r.1, r.2)

def lexNumber (cs : List Char) : Token × List Char :=
  let text := cs.takeWhile (isNumberPart cls)
  let rest := cs.dropWhile (isNumberPart cls)
  if rest.head?.any isDurationUnit then
    (⟨.duration, String.ofList (text ++ rest.takeWhile isDurationUnit)⟩,
      rest.dropWhile isDurationUnit)
  else (⟨.number, String.ofList text⟩, rest)

/-- The character with the one behind it, or nothing at the end. -/
def two (c : Char) : List Char → String
  | [] => ""
  | d :: _ => String.ofList [c, d]

def lexSymbol (c : Char) (cs : List Char) : Except Go.Error (Token × List Char) :=
  if two c cs ∈ ["==", "!=", ">=", "<=", "=~"] then .ok (⟨.op, two c cs⟩, cs.tail)
  else if c = '>' ∨ c = '<' then .ok (⟨.op, String.ofList [c]⟩, cs)
  else if c = '|' then .ok (⟨.pipe, "|"⟩, cs)
  else if c = '(' then .ok (⟨.lparen, "("⟩, cs)
  else if c = ')' then .ok (⟨.rparen, ")"⟩, cs)
  else if c = ',' then .ok (⟨.comma, ","⟩, cs)
  else if c = ':' then .ok (⟨.colon, ":"⟩, cs)
  else if c = ';' then .ok (⟨.semicolon, ";"⟩, cs)
  else .error (.errorf "unexpected character %q" [String.ofList [c]])

/-- One round of `lex`, at the character `c`: the token found there, if any, and the rest. -/
def lexToken (c : Char) (cs : List Char) : Except Go.Error (Option Token × List Char) :=
  if Go.isSpace c then .ok (none, cs)
  else if c = '"' ∨ c = '\'' then
    (lexString c cs).map fun r => (some ⟨.string, String.ofList r.1⟩, r.2)
  else if cls.isDigit c then .ok ((lexNumber cls (c :: cs)).map some id)
  else if isIdentStart cls c then
    .ok (some ⟨.ident, String.ofList ((c :: cs).takeWhile (isIdentPart cls))⟩,
      (c :: cs).dropWhile (isIdentPart cls))
  else (lexSymbol c cs).map fun r => (some r.1, r.2)

variable {cls} {cs : List Char} {c : Char} {r : Option Token × List Char}

theorem length_lexString {quote : Char} {r : List Char × List Char}
    (h : lexString quote cs = .ok r) : r.2.length < cs.length := by
  fun_induction lexString quote cs generalizing r with
  | case1 => cases h
  | case2 c cs ih =>
    obtain ⟨r', hr', rfl⟩ := map_eq_ok h
    have := ih hr'
    simp only [length_cons]
    omega
  | case3 =>
    cases h
    exact Nat.lt_succ_self _
  | case4 c cs _ _ ih =>
    obtain ⟨r', hr', rfl⟩ := map_eq_ok h
    have := ih hr'
    simp only [length_cons]
    omega

theorem length_dropWhile_cons_le {p : Char → Bool} (hc : p c = true) (cs : List Char) :
    ((c :: cs).dropWhile p).length ≤ cs.length := by
  rw [dropWhile_cons_of_pos hc]
  exact (dropWhile_sublist p).length_le

theorem length_lexNumber (hc : cls.isDigit c = true) (cs : List Char) :
    (lexNumber cls (c :: cs)).2.length ≤ cs.length := by
  have hnumber : isNumberPart cls c = true := by simp [isNumberPart, hc]
  have hle := length_dropWhile_cons_le hnumber cs
  dsimp only [lexNumber]
  split
  · exact ((dropWhile_sublist _).length_le).trans hle
  · exact hle

theorem length_lexSymbol {r : Token × List Char} (h : lexSymbol c cs = .ok r) :
    r.2.length ≤ cs.length := by
  unfold lexSymbol at h
  split_ifs at h <;> cases h <;> simp

theorem length_lexToken (h : lexToken cls c cs = .ok r) : r.2.length ≤ cs.length := by
  unfold lexToken at h
  split_ifs at h with hspace hquote hdigit hident
  · cases h
    rfl
  · obtain ⟨r', hr', rfl⟩ := map_eq_ok h
    exact (length_lexString hr').le
  · cases h
    exact length_lexNumber hdigit cs
  · cases h
    refine length_dropWhile_cons_le ?_ cs
    simp only [isIdentStart, Bool.or_eq_true] at hident
    rcases hident with h | h <;> simp [isIdentPart, h]
  · obtain ⟨r', hr', rfl⟩ := map_eq_ok h
    exact length_lexSymbol hr'

variable (cls)

/-- The tokens of a source text, with the end marker behind them. -/
def lex : List Char → Except Go.Error (List Token)
  | [] => .ok [.eof]
  | c :: cs =>
    match _h : lexToken cls c cs with
    | .error e => .error e
    | .ok r => (lex r.2).map fun tokens => r.1.toList ++ tokens
termination_by cs => cs.length
decreasing_by exact Nat.lt_succ_of_le (length_lexToken _h)

variable {cls}

theorem lex_cons (h : lexToken cls c cs = .ok r) :
    lex cls (c :: cs) = (lex cls r.2).map fun tokens => r.1.toList ++ tokens := by
  rw [lex]
  split
  · next heq =>
    rw [h] at heq
    cases heq
  · next heq =>
    rw [h] at heq
    cases heq
    rfl

end

example : lex .ascii "process.pid >= 5m".toList =
    .ok [⟨.ident, "process.pid"⟩, ⟨.op, ">="⟩, ⟨.duration, "5m"⟩, .eof] := by
  decide +kernel

end ArgusEdr.Hunt
