import ArgusEdr.Hunt.ParserTheorems

/-!
# Queries as text

`Query.Prints` relates a query to its tokens, with parentheses exactly where the levels of `or`, `and`
and `not` and association to the left need them, and `Laid` relates tokens to source text. Both are
relations because there is a choice: a text as a string or an identifier, `event` or `any`, the unit of
a window, the quotes of a string, the white space. `Query.Printable` are the queries that can be written.
-/

namespace ArgusEdr.Hunt

open Go (Library Classes)

/-! ## Tokens as text -/

section
variable (cls : Classes)

/-- A keyword or a name. -/
def word (text : String) : Token := ⟨.ident, text⟩

@[simp] theorem word_kind (text : String) : (word text).kind = .ident := rfl

@[simp] theorem word_text (text : String) : (word text).text = text := rfl

def symbols : List Token :=
  [⟨.op, "=="⟩, ⟨.op, "!="⟩, ⟨.op, ">="⟩, ⟨.op, "<="⟩, ⟨.op, "=~"⟩, ⟨.op, ">"⟩, ⟨.op, "<"⟩,
   ⟨.pipe, "|"⟩, ⟨.lparen, "("⟩, ⟨.rparen, ")"⟩, ⟨.comma, ","⟩, ⟨.colon, ":"⟩, ⟨.semicolon, ";"⟩]

/-- A text between two quotes, with a backslash before each quote and each backslash in it. -/
def escape (quote : Char) : List Char → List Char
  | [] => [quote]
  | c :: cs =>
    if c = quote ∨ c = '\\' then '\\' :: c :: escape quote cs else c :: escape quote cs

/-- The ways to write a token. -/
inductive Spelled : Token → List Char → Prop
  | ident {text : String} (h : IsIdent cls text) : Spelled (word text) text.toList
  | string (text : String) {quote : Char} (h : quote = '"' ∨ quote = '\'') :
      Spelled ⟨.string, text⟩ (quote :: escape quote text.toList)
  | number {text : String} (h : IsNumber cls text) : Spelled ⟨.number, text⟩ text.toList
  | duration {ds : List Char} {n : ℕ} (hds : Go.Digits ds n) {unit : Char} {size : ℕ}
      (hunit : (unit, size) ∈ Go.wholeUnits) :
      Spelled ⟨.duration, String.ofList (ds ++ [unit])⟩ (ds ++ [unit])
  | symbol {t : Token} (h : t ∈ symbols) : Spelled t t.text.toList

def Blank (cs : List Char) : Prop := ∀ c ∈ cs, Go.isSpace c = true

/-- The ways to write tokens, with white space between them and maybe behind them. -/
inductive Laid : List Token → List Char → Prop
  | nil {gap : List Char} (hgap : Blank gap) : Laid [] gap
  | cons {t : Token} {ts : List Token} {cs gap rest : List Char} (ht : Spelled cls t cs)
      (hgap : Blank gap) (hne : ts ≠ [] → gap ≠ []) (hts : Laid ts rest) :
      Laid (t :: ts) (cs ++ (gap ++ rest))

/-! ## Queries as tokens -/

def Op.token : Op → Token
  | .eq => ⟨.op, "=="⟩
  | .ne => ⟨.op, "!="⟩
  | .gt => ⟨.op, ">"⟩
  | .lt => ⟨.op, "<"⟩
  | .ge => ⟨.op, ">="⟩
  | .le => ⟨.op, "<="⟩
  | .regex => ⟨.op, "=~"⟩
  | .contains => word "contains"
  | .startswith => word "startswith"
  | .endswith => word "endswith"
  | .isIn => word "in"

variable [Library]

inductive Literal.Prints : Literal → Token → Prop
  | string (s : String) : Prints (.text s) ⟨.string, s⟩
  | ident {s : String} (h : IsIdent cls s) : Prints (.text s) (word s)
  | number (written : String) (num : Library.Float64) :
      Prints (.number written num) ⟨.number, written⟩

def commaSeparated : List Token → List Token
  | [] => []
  | t :: ts => t :: ts.flatMap fun t => [⟨.comma, ","⟩, t]

inductive Comparison.Prints (c : Comparison) : List Token → Prop
  | single {t : Token} (hop : c.op ≠ .isIn) (ht : c.value.Prints cls t) :
      Prints c [word c.field, c.op.token, t]
  | isIn {ts : List Token} (hop : c.op = .isIn)
      (hts : List.Forall₂ (Literal.Prints cls) c.values ts) :
      Prints c (word c.field :: word "in" :: ⟨.lparen, "("⟩ ::
        (commaSeparated ts ++ [⟨.rparen, ")"⟩]))

/-- How tightly an expression binds: `or` least, then `and`, then the rest. -/
def Expr.level : Expr → ℕ
  | .or _ _ => 0
  | .and _ _ => 1
  | .not _ => 2
  | .cmp _ => 2

/-- An expression where one that binds as tightly as `k` is wanted. -/
inductive Expr.Prints : ℕ → Expr → List Token → Prop
  | or {l r : Expr} {ts us : List Token} (hl : Prints 0 l ts) (hr : Prints 1 r us) :
      Prints 0 (.or l r) (ts ++ word "or" :: us)
  | and {k : ℕ} {l r : Expr} {ts us : List Token} (hk : k ≤ 1) (hl : Prints 1 l ts)
      (hr : Prints 2 r us) : Prints k (.and l r) (ts ++ word "and" :: us)
  | not {k : ℕ} {x : Expr} {ts : List Token} (hk : k ≤ 2) (hx : Prints 2 x ts) :
      Prints k (.not x) (word "not" :: ts)
  | cmp {k : ℕ} {c : Comparison} {ts : List Token} (hk : k ≤ 2) (hc : c.Prints cls ts) :
      Prints k (.cmp c) ts
  | paren {k : ℕ} {x : Expr} {ts : List Token} (hk : x.level < k ∧ k ≤ 2) (hx : Prints 0 x ts) :
      Prints k x (⟨.lparen, "("⟩ :: (ts ++ [⟨.rparen, ")"⟩]))

inductive ClassRef.Prints : ClassRef → Token → Prop
  | wildcard {name : String} (h : name = "event" ∨ name = "any") :
      Prints { all := true } (word name)
  | named (action : String) : Prints { action } (word action)

inductive WherePrints : Option Expr → List Token → Prop
  | none : WherePrints none []
  | some {x : Expr} {ts : List Token} (hx : x.Prints cls 0 ts) :
      WherePrints (some x) (word "where" :: ts)

inductive Pipe.Prints : Pipe → List Token → Prop
  | filter {x : Expr} {ts : List Token} (hx : x.Prints cls 0 ts) :
      Prints { filter := some x } (word "where" :: ts)
  | limit {ds : List Char} {n : ℕ} (hds : Go.Digits ds n) :
      Prints { limit := n, hasLimit := true } [word "limit", ⟨.number, String.ofList ds⟩]

inductive PipesPrint : List Pipe → List Token → Prop
  | nil : PipesPrint [] []
  | cons {p : Pipe} {ps : List Pipe} {ts us : List Token} (hp : p.Prints cls ts)
      (hps : PipesPrint ps us) : PipesPrint (p :: ps) (⟨.pipe, "|"⟩ :: (ts ++ us))

inductive Stage.Prints : Stage → List Token → Prop
  | mk {cref : ClassRef} {filter : Option Expr} {t : Token} {ts : List Token}
      (hcls : cref.Prints t) (hfilter : WherePrints cls filter ts) :
      Prints { cls := cref, filter } (t :: ts)

/-- The stages behind the first one, each behind its semicolon. -/
inductive StagesPrint : List Stage → List Token → Prop
  | nil : StagesPrint [] []
  | cons {st : Stage} {sts : List Stage} {ts us : List Token} (hst : st.Prints cls ts)
      (hsts : StagesPrint sts us) : StagesPrint (st :: sts) (⟨.semicolon, ";"⟩ :: (ts ++ us))

inductive ByPrints : String → List Token → Prop
  | none : ByPrints "" []
  | some {field : String} (h : field ≠ "") : ByPrints field [word "by", word field]

/-- The optional window of a sequence, in a whole number of seconds, minutes or hours. -/
inductive WithinPrints : Model.Time → List Token → Prop
  | none : WithinPrints 0 []
  | some {ds : List Char} {n : ℕ} (hds : Go.Digits ds n) {unit : Char} {size : ℕ}
      (hunit : (unit, size) ∈ Go.wholeUnits) (hn : n * size < 2 ^ 63) :
      WithinPrints ((n * size : ℕ) : ℤ)
        [word "within", ⟨.duration, String.ofList (ds ++ [unit])⟩]

inductive Query.Prints : Query → List Token → Prop
  | simple {cref : ClassRef} {filter : Option Expr} {pipes : List Pipe} {t : Token}
      {ts us : List Token} (hcls : cref.Prints t) (hfilter : WherePrints cls filter ts)
      (hpipes : PipesPrint cls pipes us) :
      Prints (.simple { cls := cref, filter, pipes }) (t :: (ts ++ us))
  | sequence {byField : String} {within : Model.Time} {first : Stage} {rest : List Stage}
      {bs ws ts us : List Token} (hby : ByPrints byField bs) (hwithin : WithinPrints within ws)
      (hfirst : first.Prints cls ts) (hrest : StagesPrint cls rest us) :
      Prints (.sequence { byField, within, stages := first :: rest })
        (word "sequence" :: (bs ++ (ws ++ ⟨.colon, ":"⟩ :: (ts ++ us))))

def Query.PrintedAs (q : Query) (text : String) : Prop :=
  ∃ lead tokens body, Blank lead ∧ q.Prints cls tokens ∧ Laid cls tokens body ∧
    text.toList = lead ++ body

/-! ## What can be written -/

/-- A class: all events, or a name that is not one of the two wildcards. -/
def ClassRef.Printable (c : ClassRef) : Prop :=
  c = { all := true } ∨
    ∃ action, c = { action } ∧ IsIdent cls action ∧ action ≠ "event" ∧ action ≠ "any"

def Pipe.Printable (p : Pipe) : Prop :=
  (∃ x : Expr, p = { filter := some x } ∧ x.WellFormed cls) ∨
    ∃ n : ℕ, p = { limit := n, hasLimit := true } ∧ n < 2 ^ 63

/-- A simple query with any pipes. A class with the name `sequence` would be read as the start
of a sequence. -/
structure SimpleQuery.Printable (q : SimpleQuery) : Prop where
  cref : q.cls.Printable cls
  notSequence : q.cls.action ≠ "sequence"
  filter : FilterWellFormed cls q.filter
  pipes : ∀ p ∈ q.pipes, p.Printable cls

structure SequenceQuery.Printable (q : SequenceQuery) : Prop where
  byField : q.byField = "" ∨ Model.knownField q.byField = true
  within : ∃ (n : ℕ) (unit : Char) (size : ℕ), (unit, size) ∈ Go.wholeUnits ∧ n * size < 2 ^ 63 ∧
    q.within = ((n * size : ℕ) : ℤ)
  stages : ∀ st ∈ q.stages, st.cls.Printable cls ∧ FilterWellFormed cls st.filter
  two : 2 ≤ q.stages.length

def Query.Printable : Query → Prop
  | .simple q => q.Printable cls
  | .sequence q => q.Printable cls

end

end ArgusEdr.Hunt
