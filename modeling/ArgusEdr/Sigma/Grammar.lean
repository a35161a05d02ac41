import ArgusEdr.Go.Unicode
import ArgusEdr.Sigma.Condition

/-!
# What a Sigma condition is

An expression with its parentheses, what it means for a truth value of each selection, the tokens
it is written as and the texts those tokens are laid out in. `not` binds tighter than `and`, and
`and` tighter than `or`: an expression is written at a level, 2 for the operands of `and`, 1 for
those of `or`, and 0 anywhere, and an operator on a level above its own needs parentheses.
-/

namespace ArgusEdr.Sigma

open Go (Unicode)

/-! ## Expressions and their meaning -/

inductive Pattern where
  | them
  | startingWith (start : String)
  | named (name : String)
deriving Repr, DecidableEq

def Pattern.matches : Pattern → String → Bool
  | .them, _ => true
  | .startingWith start, name => start.toList.isPrefixOf name.toList
  | .named name', name => name = name'

inductive Expr where
  | name (n : String)
  | quantified (all : Bool) (pattern : Pattern)
  | not (x : Expr)
  | paren (x : Expr)
  | and (l r : Expr)
  | or (l r : Expr)
deriving Repr, DecidableEq

section
variable (names : List String)

/-- The value of an expression over the selections `names`, from the values of the selections. -/
def Expr.eval (truth : String → Bool) : Expr → Bool
  | .name n => truth n
  | .quantified true pattern => (names.filter pattern.matches).all truth
  | .quantified false pattern => (names.filter pattern.matches).any truth
  | .not x => !x.eval truth
  | .paren x => x.eval truth
  | .and l r => l.eval truth && r.eval truth
  | .or l r => l.eval truth || r.eval truth

def Expr.mentions : Expr → List String
  | .name n => [n]
  | .quantified _ pattern => names.filter pattern.matches
  | .not x => x.mentions
  | .paren x => x.mentions
  | .and l r => l.mentions ++ r.mentions
  | .or l r => l.mentions ++ r.mentions

end

/-! ## Tokens -/

section
variable (u : Unicode)

abbrev IsKeyword (keyword token : String) : Prop := Go.equalFold u token keyword = true

structure IsName (token : String) : Prop where
  nonempty : token ≠ ""
  notParen : token ≠ "("
  notNot : ¬IsKeyword u "not" token
  notQuantifier : isQuantifier u token = false

structure IsQuantifier (all : Bool) (token : String) : Prop where
  notNot : ¬IsKeyword u "not" token
  quantifier : isQuantifier u token = true
  lower : if all then Go.toLower u token = "all"
    else Go.toLower u token = "1" ∨ Go.toLower u token = "any"

/-- `them`, a start with a `*` behind it, or a name. -/
def Pattern.Spelled : Pattern → String → Prop
  | .them, token => IsKeyword u "them" token
  | .startingWith start, token => ¬IsKeyword u "them" token ∧ token = start ++ "*"
  | .named name, token =>
    ¬IsKeyword u "them" token ∧ token ≠ "" ∧ Go.hasSuffix token "*" = false ∧ token = name

/-- The expression is written as the tokens, at a level. -/
inductive Expr.Written (names : List String) : ℕ → Expr → List String → Prop
  | name {k : ℕ} {n : String} (hk : k ≤ 2) (hname : IsName u n) (hn : n ∈ names) :
      Expr.Written names k (.name n) [n]
  | quantified {k : ℕ} {all : Bool} {pattern : Pattern} {q of p : String} (hk : k ≤ 2)
      (hq : IsQuantifier u all q) (hof : IsKeyword u "of" of) (hp : pattern.Spelled u p)
      (hmatches : ∃ n ∈ names, pattern.matches n = true) :
      Expr.Written names k (.quantified all pattern) [q, of, p]
  | not {k : ℕ} {keyword : String} {x : Expr} {ts : List String} (hk : k ≤ 2)
      (hkeyword : IsKeyword u "not" keyword) (hx : Expr.Written names 2 x ts) :
      Expr.Written names k (.not x) (keyword :: ts)
  | paren {k : ℕ} {x : Expr} {ts : List String} (hk : k ≤ 2) (hx : Expr.Written names 0 x ts) :
      Expr.Written names k (.paren x) ("(" :: (ts ++ [")"]))
  | and {k : ℕ} {keyword : String} {l r : Expr} {ts us : List String} (hk : k ≤ 1)
      (hl : Expr.Written names 1 l ts) (hkeyword : IsKeyword u "and" keyword)
      (hr : Expr.Written names 2 r us) : Expr.Written names k (.and l r) (ts ++ keyword :: us)
  | or {keyword : String} {l r : Expr} {ts us : List String} (hl : Expr.Written names 0 l ts)
      (hkeyword : IsKeyword u "or" keyword) (hr : Expr.Written names 1 r us) :
      Expr.Written names 0 (.or l r) (ts ++ keyword :: us)

end

/-! ## Texts -/

def Blank (gap : List Char) : Prop := ∀ c ∈ gap, Go.isSpace c = true

def IsParen (c : Char) : Prop := c = '(' ∨ c = ')'

structure IsWord (w : String) : Prop where
  nonempty : w ≠ ""
  chars : ∀ c ∈ w.toList, Go.isSpace c = false ∧ ¬IsParen c

/-- The tokens are laid out in the text: with any white space between them, and with some
between two words. -/
inductive Laid : List String → List Char → Prop
  | nil {gap : List Char} (hgap : Blank gap) : Laid [] gap
  | paren {gap rest : List Char} {c : Char} {ts : List String} (hgap : Blank gap)
      (hc : IsParen c) (hts : Laid ts rest) : Laid (String.ofList [c] :: ts) (gap ++ c :: rest)
  | word {gap rest : List Char} {w : String} {ts : List String} (hgap : Blank gap)
      (hw : IsWord w) (hend : ∀ c ∈ rest.head?, Go.isSpace c = true ∨ IsParen c)
      (hts : Laid ts rest) : Laid (w :: ts) (gap ++ (w.toList ++ rest))

def Expr.WrittenAs (u : Unicode) (names : List String) (x : Expr) (text : String) : Prop :=
  ∃ tokens, x.Written u names 0 tokens ∧ Laid tokens text.toList

/-! ## The lexical classes -/

section
variable {u : Unicode} {keyword token : String} {all : Bool}

theorem length_of_isKeyword (h : IsKeyword u keyword token) :
    token.toList.length = keyword.toList.length := by
  have hmap : token.toList.map u.fold = keyword.toList.map u.fold := eq_of_beq h
  simpa using congrArg List.length hmap

theorem not_isKeyword_of_length (h : token.toList.length ≠ keyword.toList.length) :
    ¬IsKeyword u keyword token :=
  fun hkeyword => h (length_of_isKeyword hkeyword)

theorem isQuantifier_paren : isQuantifier u "(" = false := by
  have hlength : ∀ word : String, word.toList.length = 3 → Go.toLower u "(" ≠ word := by
    rintro word hword rfl
    simp [Go.toLower] at hword
  have hall := hlength "all" rfl
  have hany := hlength "any" rfl
  have hatoi : (Go.atoi "(").toBool = false := by decide
  simp [isQuantifier, hall, hany, hatoi]

theorem isQuantifier_empty : isQuantifier u "" = false := by
  have hlower : Go.toLower u "" = "" := rfl
  have hatoi : (Go.atoi "").toBool = false := by decide
  simp [isQuantifier, hlower, hatoi]

theorem IsQuantifier.nonempty (h : IsQuantifier u all token) : token ≠ "" := by
  rintro rfl
  exact absurd h.quantifier (by rw [isQuantifier_empty]; decide)

theorem IsQuantifier.notParen (h : IsQuantifier u all token) : token ≠ "(" := by
  rintro rfl
  exact absurd h.quantifier (by rw [isQuantifier_paren]; decide)

end

end ArgusEdr.Sigma
