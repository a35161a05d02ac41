import ArgusEdr.Hunt.Parser

/-!
# The parser stays inside its tokens

`peek` and `next` do not check bounds. That no position past the end marker is ever read follows from
one invariant: the tokens left end with the marker and have no other (`Lexed`). A parser that reads the
marker reports an error, so whoever goes on after it still has the marker ahead.

`Consumes n p good`: from at most `n` tokens `p` reads one at least, leaves tokens that still end with
the marker, and returns a value with `good`. Reading a token pays for one level of `parseUnary`.
-/

namespace ArgusEdr.Hunt

open List

open Fallible (map_eq_ok)
open Go (Library Classes)
open Parsing

/-! ## What the lexer returns -/

section
variable (cls : Classes)

def IsIdent (text : String) : Prop :=
  text.toList.head?.any (isIdentStart cls) = true ∧ text.toList.all (isIdentPart cls) = true

def IsNumber (text : String) : Prop :=
  text.toList.head?.any cls.isDigit = true ∧ text.toList.all (isNumberPart cls) = true

def Token.WellFormed (t : Token) : Prop := t.kind = .number → IsNumber cls t.text

/-- Tokens that end with the end marker and have no other. -/
def Lexed : List Token → Prop
  | [] => False
  | t :: ts => t.WellFormed cls ∧ if t.kind = .eof then ts = [] else Lexed ts

end

variable {cls : Classes} {ts tokens : List Token} {cs : List Char} {fuel fuel' : ℕ}
  {source : String}

theorem Lexed.cons {t : Token} (hkind : t.kind ≠ .eof) (ht : t.WellFormed cls) (h : Lexed cls ts) :
    Lexed cls (t :: ts) := by
  refine ⟨ht, ?_⟩
  rw [if_neg hkind]
  exact h

theorem Lexed.exists_cons (h : Lexed cls ts) :
    ∃ t rest, ts = t :: rest ∧ t.WellFormed cls ∧ (t.kind ≠ .eof → Lexed cls rest) := by
  cases ts with
  | nil => exact h.elim
  | cons t rest =>
    refine ⟨t, rest, rfl, h.1, fun hkind => ?_⟩
    have hrest := h.2
    rwa [if_neg hkind] at hrest

theorem isNumber_takeWhile {c : Char} (hc : cls.isDigit c = true) (cs : List Char) :
    IsNumber cls (String.ofList ((c :: cs).takeWhile (isNumberPart cls))) := by
  have hpart : isNumberPart cls c = true := by simp [isNumberPart, hc]
  constructor
  · rw [String.toList_ofList, takeWhile_cons_of_pos hpart]
    simpa using hc
  · rw [String.toList_ofList, all_eq_true]
    exact fun d hd => mem_takeWhile_imp hd

theorem wellFormed_lexToken {c : Char} {t : Token} {rest : List Char}
    (h : lexToken cls c cs = .ok (some t, rest)) : t.kind ≠ .eof ∧ t.WellFormed cls := by
  unfold lexToken at h
  split_ifs at h with hspace hquote hdigit hident
  · cases h
  · obtain ⟨r, -, hr⟩ := map_eq_ok h
    cases hr
    exact ⟨by simp, by simp [Token.WellFormed]⟩
  · simp only [Except.ok.injEq, Prod.map, Prod.mk.injEq, Option.some.injEq] at h
    rw [← h.1]
    dsimp only [lexNumber]
    split
    · exact ⟨by simp, by simp [Token.WellFormed]⟩
    · exact ⟨by simp, fun _ => isNumber_takeWhile hdigit cs⟩
  · cases h
    exact ⟨by simp, by simp [Token.WellFormed]⟩
  · obtain ⟨r, hr, hr'⟩ := map_eq_ok h
    cases hr'
    unfold lexSymbol at hr
    split_ifs at hr <;> cases hr <;> exact ⟨by simp, by simp [Token.WellFormed]⟩

theorem lexed_lex (h : lex cls cs = .ok tokens) : Lexed cls tokens := by
  fun_induction lex cls cs generalizing tokens with
  | case1 =>
    cases h
    exact ⟨by simp [Token.WellFormed, Token.eof], by simp [Token.eof]⟩
  | case2 => cases h
  | case3 c cs r hr ih =>
    obtain ⟨rest, hrest, rfl⟩ := map_eq_ok h
    obtain ⟨token, left⟩ := r
    cases token with
    | none => exact ih hrest
    | some =>
      obtain ⟨hkind, ht⟩ := wellFormed_lexToken hr
      exact (ih hrest).cons hkind ht

/-! ## What a parser is held to -/

section
variable {α β : Type} {n : ℕ}

/-- At most `n` tokens are left. -/
def Within (cls : Classes) (n : ℕ) (ts : List Token) : Prop := Lexed cls ts ∧ ts.length ≤ n

/-- From at most `n` tokens, the parser leaves no more than there were. -/
def Keeps (cls : Classes) (n : ℕ) (p : P α) (good : α → Prop) : Prop :=
  ∀ ts, Within cls n ts → Safe p (fun a rest => Within cls n rest ∧ rest.length ≤ ts.length ∧ good a) ts

def Consumes (cls : Classes) (n : ℕ) (p : P α) (good : α → Prop) : Prop :=
  ∀ ts, Within cls n ts → Safe p (fun a rest => Within cls n rest ∧ rest.length < ts.length ∧ good a) ts

/-- From at most `n` tokens, the test reads a token if it succeeds, and none if it does not. -/
def Tests (cls : Classes) (n : ℕ) (test : P Bool) : Prop :=
  ∀ ts, Within cls n ts → Safe test (fun again rest =>
    if again then Within cls n rest ∧ rest.length < ts.length else rest = ts) ts

variable {p q : P α} {f : α → P β} {test : P Bool} {good : α → Prop} {good' : β → Prop}

theorem Within.pred {rest : List Token} (h : Within cls n ts) (hrest : Within cls n rest)
    (hlen : rest.length < ts.length) : Within cls (n - 1) rest :=
  ⟨hrest.1, by have := h.2; omega⟩

theorem Within.of_pred (h : Within cls (n - 1) ts) : Within cls n ts :=
  ⟨h.1, by have := h.2; omega⟩

theorem Consumes.keeps (h : Consumes cls n p good) : Keeps cls n p good := fun ts hts =>
  (h ts hts).mono fun _ _ ha => ⟨ha.1, ha.2.1.le, ha.2.2⟩

theorem Keeps.pred (h : Keeps cls n p good) : Keeps cls (n - 1) p good := fun ts hts =>
  (h ts hts.of_pred).mono fun _ _ ha => ⟨⟨ha.1.1, ha.2.1.trans hts.2⟩, ha.2⟩

theorem Keeps.mono {good'' : α → Prop} (h : Keeps cls n p good) (himp : ∀ a, good a → good'' a) :
    Keeps cls n p good'' := fun ts hts =>
  (h ts hts).mono fun _ _ ha => ⟨ha.1, ha.2.1, himp _ ha.2.2⟩

theorem keeps_pure {a : α} (h : good a) : Keeps cls n (pure a) good := fun _ hts =>
  ⟨hts, le_rfl, h⟩

theorem keeps_fail {e : Go.Error} : Keeps cls n (fail e : P α) good := fun _ _ => safe_fail

theorem Keeps.bind (hp : Keeps cls n p good) (hf : ∀ a, good a → Keeps cls n (f a) good') :
    Keeps cls n (p >>= f) good' := by
  intro ts hts
  rw [safe_bind]
  refine (hp ts hts).mono fun a rest ha => ?_
  obtain ⟨hrest, hlen, hgood⟩ := ha
  refine (hf a hgood rest hrest).mono fun b rest' hb => ?_
  exact ⟨hb.1, hb.2.1.trans hlen, hb.2.2⟩

theorem Consumes.bind (hp : Consumes cls n p good)
    (hf : ∀ a, good a → Keeps cls (n - 1) (f a) good') : Consumes cls n (p >>= f) good' := by
  intro ts hts
  rw [safe_bind]
  refine (hp ts hts).mono fun a rest ha => ?_
  obtain ⟨hrest, hlen, hgood⟩ := ha
  refine (hf a hgood rest (hts.pred hrest hlen)).mono fun b rest' hb => ?_
  exact ⟨hb.1.of_pred, hb.2.1.trans_lt hlen, hb.2.2⟩

theorem Tests.consumes (ht : Tests cls n test) (hp : Keeps cls (n - 1) p good)
    (hq : Consumes cls n q good) : Consumes cls n (do if ← test then p else q) good := by
  intro ts hts
  rw [safe_bind]
  refine (ht ts hts).mono fun again rest hagain => ?_
  cases again with
  | true =>
    obtain ⟨hrest, hlen⟩ : Within cls n rest ∧ rest.length < ts.length := hagain
    refine (hp rest (hts.pred hrest hlen)).mono fun a rest' ha => ?_
    exact ⟨ha.1.of_pred, ha.2.1.trans_lt hlen, ha.2.2⟩
  | false =>
    have hrest : rest = ts := hagain
    rw [hrest]
    exact hq ts hts

theorem Tests.keeps (ht : Tests cls n test) (hp : Keeps cls n p good) (hq : Keeps cls n q good) :
    Keeps cls n (do if ← test then p else q) good := by
  intro ts hts
  rw [safe_bind]
  refine (ht ts hts).mono fun again rest hagain => ?_
  cases again with
  | true =>
    obtain ⟨hrest, hlen⟩ : Within cls n rest ∧ rest.length < ts.length := hagain
    refine (hp rest hrest).mono fun a rest' ha => ?_
    exact ⟨ha.1, ha.2.1.trans hlen.le, ha.2.2⟩
  | false =>
    have hrest : rest = ts := hagain
    rw [hrest]
    exact hq ts hts

theorem Tests.keeps_loop {add : β → α → β} {acc : β} (ht : Tests cls n test)
    (hp : Consumes cls n p good) (hadd : ∀ b a, good' b → good a → good' (add b a))
    (hacc : good' acc) : Keeps cls n (loop test p add acc) good' := fun _ hts =>
  safe_loop (Within cls n) ht hp hadd hacc hts

theorem Tests.consumes_chain {start : α → β} {add : β → α → β} (ht : Tests cls n test)
    (hp : Consumes cls n p good) (hstart : ∀ a, good a → good' (start a))
    (hadd : ∀ b a, good' b → good a → good' (add b a)) :
    Consumes cls n (chain test p start add) good' := fun _ hts =>
  safe_chain (Within cls n) ht hp hstart hadd hts

/-! ## Tests and tokens -/

theorem tests_accept (word : String) : Tests cls n (accept word) := by
  intro ts hts
  obtain ⟨t, rest, rfl, ht, hlexed⟩ := hts.1.exists_cons
  unfold accept isKeyword
  simp only [safe_bind, safe_peek_cons, safe_pure]
  split
  · next hkeyword =>
    have hkind : t.kind ≠ .eof := by
      intro hkind
      simp [hkind] at hkeyword
    rw [safe_bind, safe_next_cons]
    refine ⟨⟨hlexed hkind, ?_⟩, Nat.lt_succ_self _⟩
    exact (Nat.le_succ _).trans hts.2
  · rfl

theorem tests_acceptKind {kind : TokenKind} (hkind : kind ≠ .eof) :
    Tests cls n (acceptKind kind) := by
  intro ts hts
  obtain ⟨t, rest, rfl, ht, hlexed⟩ := hts.1.exists_cons
  unfold acceptKind
  rw [safe_bind, safe_peek_cons]
  split
  · next heq =>
    rw [safe_bind, safe_next_cons]
    refine ⟨⟨hlexed (by rwa [heq]), ?_⟩, Nat.lt_succ_self _⟩
    exact (Nat.le_succ _).trans hts.2
  · rfl

theorem consumes_next {f : Token → P β}
    (heof : ∀ t : Token, t.kind = .eof → ∃ e, f t = fail e)
    (hf : ∀ t : Token, t.kind ≠ .eof → t.WellFormed cls → Keeps cls (n - 1) (f t) good') :
    Consumes cls n (next >>= f) good' := by
  intro ts hts
  obtain ⟨t, rest, rfl, ht, hlexed⟩ := hts.1.exists_cons
  rw [safe_bind, safe_next_cons]
  by_cases hkind : t.kind = .eof
  · obtain ⟨e, he⟩ := heof t hkind
    rw [he]
    exact safe_fail
  · have hrest : Within cls (n - 1) rest := by
      refine ⟨hlexed hkind, ?_⟩
      have := hts.2
      rw [length_cons] at this
      omega
    refine (hf t hkind ht rest hrest).mono fun b rest' hb => ?_
    exact ⟨hb.1.of_pred, Nat.lt_succ_of_le hb.2.1, hb.2.2⟩

theorem consumes_expect {kind : TokenKind} (hkind : kind ≠ .eof) (format : String) :
    Consumes cls n (expect kind format) fun t => t.kind = kind ∧ t.WellFormed cls := by
  intro ts hts
  obtain ⟨t, rest, rfl, ht, hlexed⟩ := hts.1.exists_cons
  unfold expect
  rw [safe_bind, safe_peek_cons]
  split
  · exact safe_fail
  · next heq =>
    rw [not_not] at heq
    refine ⟨⟨hlexed (by rwa [heq]), ?_⟩, Nat.lt_succ_self _, heq, ht⟩
    exact (Nat.le_succ _).trans hts.2

end

/-! ## Well-formed queries -/

variable [Library] {p q : P Expr}

def Literal.WellFormed (cls : Classes) : Literal → Prop
  | .text _ => True
  | .number written num => IsNumber cls written ∧ Library.parseFloat written = some num

/-- A comparison of a known field. `in` has a list of values, every other operator one value;
the regular expression compiles. -/
structure Comparison.WellFormed (cls : Classes) (c : Comparison) : Prop where
  known : Model.knownField c.field = true
  listed : if c.op = .isIn then c.values ≠ [] ∧ c.value = .text "" else c.values = []
  literals : ∀ v ∈ c.value :: c.values, v.WellFormed cls
  compiles : c.op = .regex → ∃ test, Library.regexp c.value.str = .ok test

def Expr.WellFormed (cls : Classes) (x : Expr) : Prop := ∀ c ∈ x.comparisons, c.WellFormed cls

theorem Expr.wellFormed_and {l r : Expr} :
    (Expr.and l r).WellFormed cls ↔ l.WellFormed cls ∧ r.WellFormed cls :=
  forall_mem_append

theorem Expr.wellFormed_or {l r : Expr} :
    (Expr.or l r).WellFormed cls ↔ l.WellFormed cls ∧ r.WellFormed cls :=
  forall_mem_append

theorem Expr.wellFormed_cmp {c : Comparison} : (Expr.cmp c).WellFormed cls ↔ c.WellFormed cls :=
  forall_mem_singleton

/-! ## The parsing functions, from the leaves up -/

section
variable {n : ℕ}

omit [Library] in
theorem consumes_parseField : Consumes cls n parseField fun field => Model.knownField field = true := by
  refine (consumes_expect (by decide) _).bind fun t _ => ?_
  split
  · exact keeps_fail
  · next hknown => exact keeps_pure (not_not.mp hknown)

omit [Library] in
theorem Token.operator_ne_isIn {t : Token} {op : Op} (h : t.operator = some op) : op ≠ .isIn := by
  rintro rfl
  unfold Token.operator at h
  split at h
  · simpa [opOfSymbol] using Go.mem_of_lookup h
  · simpa [opOfWord] using Go.mem_of_lookup h
  · cases h

omit [Library] in
theorem consumes_parseOperator : Consumes cls n parseOperator fun op => op ≠ .isIn := by
  intro ts hts
  obtain ⟨t, rest, rfl, ht, hlexed⟩ := hts.1.exists_cons
  unfold parseOperator
  rw [safe_bind, safe_peek_cons]
  cases hop : t.operator with
  | none => exact safe_fail
  | some =>
    have hkind : t.kind ≠ .eof := by
      intro hkind
      simp [Token.operator, hkind] at hop
    rw [safe_bind, safe_next_cons]
    refine ⟨⟨hlexed hkind, ?_⟩, Nat.lt_succ_self _, Token.operator_ne_isIn hop⟩
    exact (Nat.le_succ _).trans hts.2

theorem consumes_parseValue : Consumes cls n parseValue (Literal.WellFormed cls) := by
  refine consumes_next ?_ ?_
  · intro t hkind
    simp only [hkind]
    exact ⟨_, rfl⟩
  · intro t hkind ht
    split
    · exact keeps_pure trivial
    · exact keeps_pure trivial
    · next hnumber =>
      split
      · exact keeps_fail
      · next num hnum => exact keeps_pure ⟨ht hnumber, hnum⟩
    · exact keeps_fail

theorem consumes_parseIn {field : String} (hfield : Model.knownField field = true) :
    Consumes cls n (parseIn field) (Expr.WellFormed cls) := by
  refine (consumes_expect (by decide) _).bind fun _ _ => ?_
  have hvalues : Consumes cls (n - 1)
      (chain (acceptKind .comma) parseValue (fun v => [v]) fun vs v => vs ++ [v])
      fun vs => vs ≠ [] ∧ ∀ v ∈ vs, v.WellFormed cls := by
    refine (tests_acceptKind (by decide)).consumes_chain consumes_parseValue ?_ ?_
    · intro v hv
      simpa using hv
    · intro vs v hvs hv
      simp only [ne_eq, append_eq_nil_iff, cons_ne_self, and_false, not_false_eq_true,
        mem_append, mem_singleton, true_and]
      rintro w (hw | rfl)
      · exact hvs.2 w hw
      · exact hv
  refine (hvalues.bind fun vs hvs => ?_).keeps
  refine (consumes_expect (by decide) _).keeps.bind fun _ _ => keeps_pure ?_
  refine Expr.wellFormed_cmp.mpr ⟨hfield, ⟨hvs.1, rfl⟩, ?_, by simp⟩
  simpa [Literal.WellFormed] using hvs.2

theorem consumes_parseComparison : Consumes cls n parseComparison (Expr.WellFormed cls) := by
  refine consumes_parseField.bind fun field hfield => ?_
  refine (tests_accept "in").keeps (consumes_parseIn hfield).keeps ?_
  refine consumes_parseOperator.keeps.bind fun op hop => ?_
  refine consumes_parseValue.keeps.bind fun value hvalue => ?_
  split
  · next hregex =>
    split
    · exact keeps_fail
    · next test htest =>
      refine keeps_pure (Expr.wellFormed_cmp.mpr ⟨hfield, ?_, ?_, fun _ => ⟨test, htest⟩⟩)
      · simp [hop]
      · simpa using hvalue
  · next hregex =>
    refine keeps_pure (Expr.wellFormed_cmp.mpr ⟨hfield, ?_, ?_, fun h => absurd h hregex⟩)
    · simp [hop]
    · simpa using hvalue

theorem consumes_parseAnd {unary : P Expr} (h : Consumes cls n unary (Expr.WellFormed cls)) :
    Consumes cls n (parseAnd unary) (Expr.WellFormed cls) :=
  (tests_accept "and").consumes_chain h (fun _ hx => hx)
    fun _ _ hl hr => Expr.wellFormed_and.mpr ⟨hl, hr⟩

theorem consumes_parseOr {unary : P Expr} (h : Consumes cls n unary (Expr.WellFormed cls)) :
    Consumes cls n (parseOr unary) (Expr.WellFormed cls) :=
  (tests_accept "or").consumes_chain (consumes_parseAnd h) (fun _ hx => hx)
    fun _ _ hl hr => Expr.wellFormed_or.mpr ⟨hl, hr⟩

theorem consumes_parseUnary (fuel : ℕ) :
    Consumes cls fuel (parseUnary fuel) (Expr.WellFormed cls) := by
  induction fuel with
  | zero =>
    intro ts hts
    obtain ⟨t, rest, rfl, -, -⟩ := hts.1.exists_cons
    exact absurd hts.2 (Nat.not_succ_le_zero _)
  | succ fuel ih =>
    refine (tests_accept "not").consumes ?_ ((tests_acceptKind (by decide)).consumes ?_ ?_)
    · exact ih.keeps.bind fun x hx => keeps_pure hx
    · refine (consumes_parseOr ih).keeps.bind fun x hx => ?_
      exact (consumes_expect (by decide) _).keeps.bind fun _ _ => keeps_pure hx
    · exact consumes_parseComparison

theorem consumes_parseExpr (fuel : ℕ) :
    Consumes cls fuel (parseExpr fuel) (Expr.WellFormed cls) :=
  consumes_parseOr (consumes_parseUnary fuel)

def FilterWellFormed (cls : Classes) (filter : Option Expr) : Prop :=
  ∀ x ∈ filter, x.WellFormed cls

omit [Library] in
theorem consumes_parseClass : Consumes cls n parseClass fun _ => True := by
  refine (consumes_expect (by decide) _).bind fun t _ => ?_
  split <;> exact keeps_pure trivial

theorem keeps_parseWhere (fuel : ℕ) :
    Keeps cls fuel (parseWhere fuel) (FilterWellFormed cls) := by
  refine (tests_accept "where").keeps ?_ (keeps_pure (by simp [FilterWellFormed]))
  refine (consumes_parseExpr fuel).keeps.bind fun x hx => keeps_pure ?_
  simpa [FilterWellFormed] using hx

theorem consumes_parsePipe (fuel : ℕ) :
    Consumes cls fuel (parsePipe fuel) fun pipe => FilterWellFormed cls pipe.filter := by
  refine (tests_accept "where").consumes ?_ ((tests_accept "limit").consumes ?_ ?_)
  · refine (consumes_parseExpr fuel).keeps.pred.bind fun x hx => keeps_pure ?_
    simpa [FilterWellFormed] using hx
  · refine (consumes_expect (by decide) _).keeps.bind fun t _ => ?_
    split
    · exact keeps_fail
    · exact keeps_pure (by simp [FilterWellFormed])
  · intro ts hts
    obtain ⟨t, rest, rfl, -, -⟩ := hts.1.exists_cons
    rw [safe_bind, safe_peek_cons]
    exact safe_fail

theorem consumes_parseSimple (fuel : ℕ) : Consumes cls fuel (parseSimple fuel) fun q =>
    FilterWellFormed cls q.filter ∧ ∀ pipe ∈ q.pipes, FilterWellFormed cls pipe.filter := by
  refine consumes_parseClass.bind fun _ _ => ?_
  refine (keeps_parseWhere fuel).pred.bind fun filter hfilter => ?_
  have hpipes : Keeps cls fuel
      (loop (acceptKind .pipe) (parsePipe fuel) (fun pipes pipe => pipes ++ [pipe]) [])
      fun pipes => ∀ pipe ∈ pipes, FilterWellFormed cls pipe.filter := by
    refine (tests_acceptKind (by decide)).keeps_loop (consumes_parsePipe fuel) ?_ (by simp)
    intro pipes pipe hpipes hpipe pipe' hmem
    rcases mem_append.mp hmem with hmem | hmem
    · exact hpipes pipe' hmem
    · rw [mem_singleton] at hmem
      rwa [hmem]
  exact hpipes.pred.bind fun pipes hpipes => keeps_pure ⟨hfilter, hpipes⟩

theorem consumes_parseStage (fuel : ℕ) :
    Consumes cls fuel (parseStage fuel) fun st => FilterWellFormed cls st.filter := by
  refine consumes_parseClass.bind fun _ _ => ?_
  exact (keeps_parseWhere fuel).pred.bind fun filter hfilter => keeps_pure hfilter

omit [Library] in
theorem consumes_parseDuration : Consumes cls n parseDuration fun _ => True := by
  refine consumes_next ?_ ?_
  · intro t hkind
    simp only [hkind]
    exact ⟨_, rfl⟩
  · intro t hkind ht
    split
    · split
      · exact keeps_fail
      · exact keeps_pure trivial
    · split
      · exact keeps_fail
      · exact keeps_pure trivial
    · exact keeps_fail

omit [Library] in
theorem keeps_parseBy : Keeps cls n parseBy fun _ => True :=
  (tests_accept "by").keeps (consumes_parseField.keeps.mono fun _ _ => trivial)
    (keeps_pure trivial)

omit [Library] in
theorem keeps_parseWithin : Keeps cls n parseWithin fun _ => True :=
  (tests_accept "within").keeps consumes_parseDuration.keeps (keeps_pure trivial)

theorem keeps_parseSequence (fuel : ℕ) : Keeps cls fuel (parseSequence fuel) fun q =>
    2 ≤ q.stages.length ∧ ∀ st ∈ q.stages, FilterWellFormed cls st.filter := by
  refine keeps_parseBy.bind fun _ _ => keeps_parseWithin.bind fun _ _ => ?_
  refine (consumes_expect (by decide) _).keeps.bind fun _ _ => ?_
  have hstages : Consumes cls fuel
      (chain (acceptKind .semicolon) (parseStage fuel) (fun st => [st]) fun sts st => sts ++ [st])
      fun sts => ∀ st ∈ sts, FilterWellFormed cls st.filter := by
    refine (tests_acceptKind (by decide)).consumes_chain (consumes_parseStage fuel) ?_ ?_
    · intro st hst
      simpa using hst
    · intro sts st hsts hst st' hmem
      rcases mem_append.mp hmem with hmem | hmem
      · exact hsts st' hmem
      · rw [mem_singleton] at hmem
        rwa [hmem]
  refine hstages.keeps.bind fun stages hstages => ?_
  split
  · exact keeps_fail
  · next hlen => exact keeps_pure ⟨not_lt.mp hlen, hstages⟩

def Query.comparisons : Query → List Comparison
  | .simple q => q.comparisons
  | .sequence q => ((q.stages.filterMap Stage.filter).map Expr.comparisons).flatten

def Query.WellFormed (cls : Classes) (q : Query) : Prop := ∀ c ∈ q.comparisons, c.WellFormed cls

/-- A sequence has a first stage and one to follow. -/
def Query.Staged : Query → Prop
  | .simple _ => True
  | .sequence q => 2 ≤ q.stages.length

theorem consumes_parseQuery (fuel : ℕ) :
    Consumes cls fuel (parseQuery fuel) fun q => q.WellFormed cls ∧ q.Staged := by
  refine (tests_accept "sequence").consumes ?_ ?_
  · refine (keeps_parseSequence fuel).pred.bind fun q hq => keeps_pure ⟨?_, hq.1⟩
    intro c hc
    simp only [Query.comparisons, mem_flatten, mem_map, mem_filterMap] at hc
    obtain ⟨_, ⟨x, ⟨st, hst, hfilter⟩, rfl⟩, hc⟩ := hc
    exact hq.2 st hst x hfilter c hc
  · refine (consumes_parseSimple fuel).bind fun q hq => keeps_pure ⟨?_, trivial⟩
    intro c hc
    simp only [Query.comparisons, SimpleQuery.comparisons, mem_flatten, mem_map,
      mem_append, mem_filterMap, Option.mem_toList] at hc
    obtain ⟨_, ⟨x, hx | ⟨pipe, hpipe, hfilter⟩, rfl⟩, hc⟩ := hc
    · exact hq.1 x hx c hc
    · exact hq.2 pipe hpipe x hfilter c hc

theorem consumes_parseAll (fuel : ℕ) :
    Consumes cls fuel (parseAll fuel) fun q => q.WellFormed cls ∧ q.Staged := by
  refine (consumes_parseQuery fuel).bind fun q hq => ?_
  intro ts hts
  obtain ⟨t, rest, rfl, -, -⟩ := hts.1.exists_cons
  rw [safe_bind, safe_peek_cons]
  split
  · exact safe_fail
  · exact ⟨hts, le_rfl, hq⟩

end

/-! ## More fuel changes nothing -/

theorem approx_parseAnd (h : Approx p q) : Approx (parseAnd p) (parseAnd q) :=
  h.chain id Expr.and

theorem approx_parseOr (h : Approx p q) : Approx (parseOr p) (parseOr q) :=
  (approx_parseAnd h).chain id Expr.or

theorem approx_parseUnary (h : fuel ≤ fuel') : Approx (parseUnary fuel) (parseUnary fuel') := by
  induction fuel generalizing fuel' with
  | zero => exact approx_outOfFuel _
  | succ fuel ih =>
    obtain ⟨fuel', rfl⟩ : ∃ k, fuel' = k + 1 := ⟨fuel' - 1, by omega⟩
    have hrec : Approx (parseUnary fuel) (parseUnary fuel') := ih (by omega)
    refine Approx.bind (.refl _) fun _ => .ite (hrec.bind fun _ => .refl _) ?_
    refine Approx.bind (.refl _) fun _ => .ite ?_ (.refl _)
    exact (approx_parseOr hrec).bind fun _ => .refl _

theorem approx_parseAll (h : fuel ≤ fuel') : Approx (parseAll fuel) (parseAll fuel') := by
  have hexpr : Approx (parseExpr fuel) (parseExpr fuel') := approx_parseOr (approx_parseUnary h)
  have hwhere : Approx (parseWhere fuel) (parseWhere fuel') :=
    Approx.bind (.refl _) fun _ => .ite (hexpr.bind fun _ => .refl _) (.refl _)
  have hpipe : Approx (parsePipe fuel) (parsePipe fuel') :=
    Approx.bind (.refl _) fun _ => .ite (hexpr.bind fun _ => .refl _) (.refl _)
  have hsimple : Approx (parseSimple fuel) (parseSimple fuel') :=
    Approx.bind (.refl _) fun _ => hwhere.bind fun _ => (hpipe.loop _ _).bind fun _ => .refl _
  have hstage : Approx (parseStage fuel) (parseStage fuel') :=
    Approx.bind (.refl _) fun _ => hwhere.bind fun _ => .refl _
  have hsequence : Approx (parseSequence fuel) (parseSequence fuel') :=
    Approx.bind (.refl _) fun _ => Approx.bind (.refl _) fun _ => Approx.bind (.refl _) fun _ =>
      (hstage.chain _ _).bind fun _ => .refl _
  have hquery : Approx (parseQuery fuel) (parseQuery fuel') :=
    Approx.bind (.refl _) fun _ =>
      .ite (hsequence.bind fun _ => .refl _) (hsimple.bind fun _ => .refl _)
  exact hquery.bind fun _ => .refl _

/-! ## Every source -/

/-- The outcome of a call that returns: a value or an error. -/
def returned {α : Type} : Except Go.Error α → Except (Halt Go.Error) α
  | .ok a => .ok a
  | .error e => .error (.err e)

theorem parseTokens_of_lex (h : lex cls source.toList = .ok tokens) :
    ∃ outcome : Except Go.Error Query, (∀ q, outcome = .ok q → q.WellFormed cls ∧ q.Staged) ∧
      ∀ fuel, tokens.length ≤ fuel → parseTokens fuel tokens = returned outcome := by
  have hsafe := consumes_parseAll tokens.length tokens ⟨lexed_lex h, le_rfl⟩
  have hrun : ∀ fuel, tokens.length ≤ fuel →
      (parseAll fuel).run tokens = (parseAll tokens.length).run tokens :=
    fun fuel hfuel => (approx_parseAll hfuel).run_eq hsafe
  unfold Safe at hsafe
  split at hsafe
  · next q rest heq =>
    refine ⟨.ok q, ?_, fun fuel hfuel => ?_⟩
    · rintro q' ⟨⟩
      exact hsafe.2.2
    · rw [parseTokens, hrun fuel hfuel, heq]
      rfl
  · next e heq =>
    refine ⟨.error e, by simp, fun fuel hfuel => ?_⟩
    rw [parseTokens, hrun fuel hfuel, heq]
    rfl
  all_goals exact hsafe.elim

/-- `Compile` returns on every source, with a query or an error: the parser never reads past its
last token and never goes deeper than the query has tokens, and with a larger bound on its depth
it returns the same. -/
theorem compile_returns (cls : Classes) (source : String) :
    ∃ outcome : Except Go.Error Query, compile cls source = returned outcome ∧
      ∀ tokens, lex cls source.toList = .ok tokens →
        ∀ fuel, tokens.length ≤ fuel → parseTokens fuel tokens = returned outcome := by
  cases h : lex cls source.toList with
  | error e =>
    refine ⟨.error e, ?_, by simp⟩
    rw [compile, h]
    rfl
  | ok tokens =>
    obtain ⟨outcome, -, hparse⟩ := parseTokens_of_lex h
    refine ⟨outcome, ?_, ?_⟩
    · rw [compile, h]
      exact hparse tokens.length le_rfl
    · rintro _ ⟨⟩
      exact hparse

theorem accepted_of_compile {q : Query} (h : compile cls source = .ok q) :
    q.WellFormed cls ∧ q.Staged := by
  unfold compile at h
  split at h
  · cases h
  · next tokens hlex =>
    obtain ⟨outcome, hwell, hparse⟩ := parseTokens_of_lex hlex
    rw [hparse tokens.length le_rfl] at h
    cases outcome with
    | error => cases h
    | ok =>
      cases h
      exact hwell q rfl

theorem wellFormed_of_compile {q : Query} (h : compile cls source = .ok q) :
    q.WellFormed cls := (accepted_of_compile h).1

theorem two_le_stages_of_compile {q : SequenceQuery} (h : compile cls source = .ok (.sequence q)) :
    2 ≤ q.stages.length :=
  (accepted_of_compile h).2

end ArgusEdr.Hunt
