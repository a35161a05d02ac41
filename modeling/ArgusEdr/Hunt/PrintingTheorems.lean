import ArgusEdr.Hunt.LayoutTheorems

/-!
# Printing a query and compiling the text

The parser reads a query back from every list of tokens it prints as (`run_parseQuery`), level by level:
`ReadsAt` is what the operands of a chain of `or`s or `and`s read, and each constructor of `Expr.Prints`
adds one operand or goes to a tighter level.
-/

namespace ArgusEdr.Hunt

open Token (eof)
open List hiding foldl_concat
open Go (Library Classes)
open Parsing

variable {cls : Classes}

/-! ## Tokens -/

theorem run_accept_cons (name : String) (t : Token) (rest : List Token) :
    (accept name).run (t :: rest) =
      if t.kind = .ident ∧ t.text = name then .ok (true, rest) else .ok (false, t :: rest) := by
  unfold accept isKeyword
  rw [bind_assoc, run_bind_ok (run_peek_cons t rest), pure_bind]
  by_cases h : t.kind = .ident ∧ t.text = name
  · simp only [h, decide_true, Bool.and_self, and_self, if_true]
    rfl
  · have hfalse : (decide (t.kind = .ident) && decide (t.text = name)) = false := by
      simpa using h
    rw [if_neg h, hfalse]
    rfl

theorem run_acceptKind_cons (kind : TokenKind) (t : Token) (rest : List Token) :
    (acceptKind kind).run (t :: rest) =
      if t.kind = kind then .ok (true, rest) else .ok (false, t :: rest) := by
  unfold acceptKind
  rw [run_bind_ok (run_peek_cons t rest)]
  split <;> rfl

variable {t : Token} {ts : List Token} {field : String} {op : Op} {ds : List Char} {n : ℕ}

theorem run_expect_cons {kind : TokenKind} (h : t.kind = kind) (format : String)
    (rest : List Token) : (expect kind format).run (t :: rest) = .ok (t, rest) := by
  unfold expect
  rw [run_bind_ok (run_peek_cons t rest), if_neg (not_not.mpr h)]
  rfl

theorem run_accept_word (name : String) (rest : List Token) :
    (accept name).run (word name :: rest) = .ok (true, rest) := by
  rw [run_accept_cons, if_pos ⟨rfl, rfl⟩]

def NotWord (ts : List Token) : Prop := ∃ t rest, ts = t :: rest ∧ t.kind ≠ .ident

theorem NotWord.run_accept (h : NotWord ts) (name : String) :
    (accept name).run ts = .ok (false, ts) := by
  obtain ⟨t, rest, rfl, hkind⟩ := h
  rw [run_accept_cons, if_neg fun hname => hkind hname.1]

/-! ## Comparisons -/

theorem run_parseField (h : Model.knownField field = true) (rest : List Token) :
    parseField.run (word field :: rest) = .ok (field, rest) := by
  unfold parseField
  rw [run_bind_ok (run_expect_cons (word_kind field) _ _), word_text, if_neg (not_not.mpr h)]
  rfl

theorem Op.token_text_ne (hop : op ≠ .isIn) : op.token.text ≠ "in" := by
  cases op <;> first | decide | exact absurd rfl hop

theorem run_parseOperator (hop : op ≠ .isIn) (rest : List Token) :
    parseOperator.run (op.token :: rest) = .ok (op, rest) := by
  have htoken : op.token.operator = some op := by
    cases op <;> first | rfl | exact absurd rfl hop
  unfold parseOperator
  rw [run_bind_ok (run_peek_cons _ _), htoken]
  rfl

section
variable [Library]

theorem run_parseValue {v : Literal} (h : v.Prints cls t) (hv : v.WellFormed cls)
    (rest : List Token) : parseValue.run (t :: rest) = .ok (v, rest) := by
  unfold parseValue
  rw [run_bind_ok (run_next_cons _ _)]
  cases h with
  | string | ident => rfl
  | number =>
    simp only [hv.2]
    rfl

theorem rounds_values {vs : List Literal} (h : List.Forall₂ (Literal.Prints cls) vs ts)
    (hvs : ∀ v ∈ vs, v.WellFormed cls) :
    Rounds (fun _ => True) (acceptKind .comma) parseValue
      (ts.flatMap fun t => [⟨.comma, ","⟩, t]) vs := by
  induction h with
  | nil => exact .nil
  | @cons v t vs ts hv _ ih =>
    obtain ⟨hvw, hvsw⟩ := forall_mem_cons.mp hvs
    have hvalue : Reads (fun _ => True) parseValue [t] v := fun rest _ => run_parseValue hv hvw rest
    refine .cons (s := [⟨.comma, ","⟩]) (by simp) ?_ (fun _ => trivial) hvalue (ih hvsw)
    intro rest _
    rw [singleton_append, run_acceptKind_cons, if_pos rfl]

variable {c : Comparison} {q : Query} {text : String}

theorem reads_parseIn (hc : c.WellFormed cls) (hop : c.op = .isIn)
    (h : List.Forall₂ (Literal.Prints cls) c.values ts) :
    Reads (fun _ => True) (parseIn c.field)
      (⟨.lparen, "("⟩ :: (commaSeparated ts ++ [⟨.rparen, ")"⟩])) (.cmp c) := by
  intro rest _
  have hlisted := hc.listed
  rw [if_pos hop] at hlisted
  have hvalues : ∀ v ∈ c.values, v.WellFormed cls := fun v hv =>
    hc.literals v (mem_cons_of_mem _ hv)
  cases hvs : c.values with
  | nil => exact absurd hvs hlisted.1
  | cons v vs =>
    rw [hvs] at h hvalues
    cases h with
    | @cons _ t _ ts ht hts =>
      obtain ⟨hv, hvs'⟩ := forall_mem_cons.mp hvalues
      have hfirst : Reads (fun _ => True) parseValue [t] v := fun rest _ => run_parseValue ht hv rest
      have hchain := hfirst.chain (rounds_values hts hvs') (fun v => [v]) fun vs v => vs ++ [v]
      have hstop : Stops (fun _ => True) (acceptKind .comma) (⟨.rparen, ")"⟩ :: rest) := by
        refine ⟨trivial, ?_⟩
        rw [run_acceptKind_cons, if_neg (by decide)]
      have hopen : (⟨.lparen, "("⟩ : Token).kind = .lparen := rfl
      have hclose : (⟨.rparen, ")"⟩ : Token).kind = .rparen := rfl
      have htokens : commaSeparated (t :: ts) ++ [⟨.rparen, ")"⟩] ++ rest =
          [t] ++ (ts.flatMap fun t => [⟨.comma, ","⟩, t]) ++ ⟨.rparen, ")"⟩ :: rest := by
        simp [commaSeparated]
      have hcmp : (Expr.cmp { field := c.field, op := .isIn, values := v :: vs }) = .cmp c := by
        rw [← hop, ← hvs, ← hlisted.2]
      unfold parseIn
      rw [cons_append, run_bind_ok (run_expect_cons hopen _ _), htokens,
        run_bind_ok (hchain _ hstop), run_bind_ok (run_expect_cons hclose _ _), foldl_concat,
        singleton_append, hcmp]
      rfl

theorem reads_parseComparison (hc : c.WellFormed cls) (h : c.Prints cls ts) :
    Reads (fun _ => True) parseComparison ts (.cmp c) := by
  intro rest _
  cases h with
  | @single t hop ht =>
    have hlisted := hc.listed
    rw [if_neg hop] at hlisted
    have hvalue : c.value.WellFormed cls := hc.literals _ mem_cons_self
    have hnotIn : (accept "in").run (c.op.token :: t :: rest) = .ok (false, c.op.token :: t :: rest) := by
      rw [run_accept_cons, if_neg fun h => Op.token_text_ne hop h.2]
    have hcmp : (Expr.cmp { field := c.field, op := c.op, value := c.value }) = .cmp c := by
      rw [← hlisted]
    unfold parseComparison
    show StateT.run _ (word c.field :: c.op.token :: t :: rest) = _
    rw [run_bind_ok (run_parseField hc.known _), run_bind_ok hnotIn]
    show StateT.run (parseOperator >>= _) _ = _
    rw [run_bind_ok (run_parseOperator hop _), run_bind_ok (run_parseValue ht hvalue _), hcmp]
    split
    · next hregex =>
      obtain ⟨test, htest⟩ := hc.compiles hregex
      rw [htest]
      rfl
    · rfl
  | isIn hop hts =>
    unfold parseComparison
    rw [cons_append, run_bind_ok (run_parseField hc.known _), cons_append,
      run_bind_ok (run_accept_word _ _)]
    exact reads_parseIn hc hop hts rest trivial

/-! ## Expressions -/

section
variable (fuel : ℕ)

abbrev AndEnds : List Token → Prop := Stops (fun _ => True) (accept "and")

abbrev ExprEnds : List Token → Prop := Stops AndEnds (accept "or")

omit [Library] in
theorem NotWord.exprEnds (h : NotWord ts) : ExprEnds ts :=
  ⟨⟨trivial, h.run_accept _⟩, h.run_accept _⟩

/-- How the tokens of an expression are read at each level: by a chain of operands of the next
level, or by `parseUnary`. -/
def ReadsAt : ℕ → Expr → List Token → Prop
  | 0, x, ts => ∃ first rest us vs, ts = us ++ vs ∧ x = rest.foldl Expr.or first ∧
      Reads AndEnds (parseAnd (parseUnary fuel)) us first ∧
      Rounds AndEnds (accept "or") (parseAnd (parseUnary fuel)) vs rest
  | 1, x, ts => ∃ first rest us vs, ts = us ++ vs ∧ x = rest.foldl Expr.and first ∧
      Reads (fun _ => True) (parseUnary fuel) us first ∧
      Rounds (fun _ => True) (accept "and") (parseUnary fuel) vs rest
  | _, x, ts => Reads (fun _ => True) (parseUnary fuel) ts x

variable {fuel} {x : Expr} {us rest bs ws : List Token} {filter : Option Expr} {ps : List Pipe}
  {within : Model.Time}

theorem ReadsAt.reads_and (h : ReadsAt fuel 1 x ts) :
    Reads AndEnds (parseAnd (parseUnary fuel)) ts x := by
  obtain ⟨first, rest, us, vs, rfl, rfl, hfirst, hrest⟩ := h
  exact hfirst.chain hrest id Expr.and

theorem ReadsAt.reads_or (h : ReadsAt fuel 0 x ts) :
    Reads ExprEnds (parseOr (parseUnary fuel)) ts x := by
  obtain ⟨first, rest, us, vs, rfl, rfl, hfirst, hrest⟩ := h
  exact hfirst.chain hrest id Expr.or

theorem ReadsAt.of_one (h : ReadsAt fuel 1 x ts) : ReadsAt fuel 0 x ts :=
  ⟨x, [], ts, [], (append_nil ts).symm, rfl, h.reads_and, .nil⟩

theorem ReadsAt.of_two (h : ReadsAt fuel 2 x ts) {k : ℕ} (hk : k ≤ 2) : ReadsAt fuel k x ts := by
  have hone : ReadsAt fuel 1 x ts := ⟨x, [], ts, [], (append_nil ts).symm, rfl, h, .nil⟩
  interval_cases k
  · exact hone.of_one
  · exact hone
  · exact h

theorem ReadsAt.and {l r : Expr} (hl : ReadsAt fuel 1 l ts) (hr : ReadsAt fuel 2 r us) :
    ReadsAt fuel 1 (.and l r) (ts ++ word "and" :: us) := by
  obtain ⟨first, rest, vs, ws, rfl, rfl, hfirst, hrest⟩ := hl
  have hsep : Reads (fun _ => True) (accept "and") [word "and"] true := fun rest _ =>
    run_accept_word "and" rest
  have hrounds := hrest.concat (cons_ne_nil _ _) hsep (fun _ => trivial) hr
  refine ⟨first, rest ++ [r], vs, ws ++ ([word "and"] ++ us), ?_, ?_, hfirst, hrounds⟩
  all_goals simp

theorem ReadsAt.or {l r : Expr} (hl : ReadsAt fuel 0 l ts) (hr : ReadsAt fuel 1 r us) :
    ReadsAt fuel 0 (.or l r) (ts ++ word "or" :: us) := by
  obtain ⟨first, rest, vs, ws, rfl, rfl, hfirst, hrest⟩ := hl
  have hsep : Reads (fun _ => True) (accept "or") [word "or"] true := fun rest _ =>
    run_accept_word "or" rest
  have hends : ∀ rest, AndEnds ([word "or"] ++ rest) := by
    refine fun rest => ⟨trivial, ?_⟩
    rw [singleton_append, run_accept_cons, if_neg (by simp)]
  have hrounds := hrest.concat (cons_ne_nil _ _) hsep hends hr.reads_and
  refine ⟨first, rest ++ [r], vs, ws ++ ([word "or"] ++ us), ?_, ?_, hfirst, hrounds⟩
  all_goals simp

theorem ReadsAt.not (h : ReadsAt fuel 2 x ts) :
    ReadsAt (fuel + 1) 2 (.not x) (word "not" :: ts) := by
  intro rest _
  show StateT.run (accept "not" >>= _) (word "not" :: (ts ++ rest)) = _
  rw [run_bind_ok (run_accept_word _ _)]
  show StateT.run (parseUnary fuel >>= _) _ = _
  rw [run_bind_ok (h rest trivial)]
  rfl

theorem ReadsAt.paren (h : ReadsAt fuel 0 x ts) :
    ReadsAt (fuel + 1) 2 x (⟨.lparen, "("⟩ :: (ts ++ [⟨.rparen, ")"⟩])) := by
  intro rest _
  have hopen : NotWord (⟨.lparen, "("⟩ :: (ts ++ ⟨.rparen, ")"⟩ :: rest)) := ⟨_, _, rfl, by simp⟩
  have hclose : NotWord (⟨.rparen, ")"⟩ :: rest) := ⟨_, _, rfl, by simp⟩
  have haccept : (acceptKind .lparen).run (⟨.lparen, "("⟩ :: (ts ++ ⟨.rparen, ")"⟩ :: rest)) =
      .ok (true, ts ++ ⟨.rparen, ")"⟩ :: rest) := by
    rw [run_acceptKind_cons, if_pos rfl]
  have hkind : (⟨.rparen, ")"⟩ : Token).kind = .rparen := rfl
  rw [cons_append, append_assoc, singleton_append]
  show StateT.run (accept "not" >>= _) _ = _
  rw [run_bind_ok (hopen.run_accept _)]
  show StateT.run (acceptKind .lparen >>= _) _ = _
  rw [run_bind_ok haccept]
  show StateT.run (parseOr (parseUnary fuel) >>= _) _ = _
  rw [run_bind_ok (h.reads_or _ hclose.exprEnds), run_bind_ok (run_expect_cons hkind _ _)]
  rfl

theorem ReadsAt.cmp (hc : c.WellFormed cls) (h : c.Prints cls ts) :
    ReadsAt (fuel + 1) 2 (.cmp c) ts := by
  intro rest _
  have hfirst : ∃ us, ts = word c.field :: us := by
    cases h with
    | single _ _ | isIn _ _ => exact ⟨_, rfl⟩
  obtain ⟨us, rfl⟩ := hfirst
  have hnot : (accept "not").run (word c.field :: (us ++ rest)) =
      .ok (false, word c.field :: (us ++ rest)) := by
    rw [run_accept_cons, if_neg]
    rintro ⟨-, hname⟩
    have hknown := hc.known
    rw [show c.field = "not" from hname] at hknown
    exact absurd hknown (by decide)
  have hparen : (acceptKind .lparen).run (word c.field :: (us ++ rest)) =
      .ok (false, word c.field :: (us ++ rest)) := by
    rw [run_acceptKind_cons, if_neg (by simp)]
  show StateT.run (accept "not" >>= _) (word c.field :: (us ++ rest)) = _
  rw [run_bind_ok hnot]
  show StateT.run (acceptKind .lparen >>= _) _ = _
  rw [run_bind_ok hparen]
  exact reads_parseComparison hc h rest trivial

theorem readsAt_of_prints {k : ℕ} (h : x.Prints cls k ts) (hx : x.WellFormed cls)
    (hfuel : ts.length ≤ fuel) : ReadsAt fuel k x ts := by
  induction h generalizing fuel with
  | or _ _ ihl ihr =>
    obtain ⟨hl, hr⟩ := Expr.wellFormed_or.mp hx
    rw [length_append, length_cons] at hfuel
    exact (ihl hl (by omega)).or (ihr hr (by omega))
  | @and k l r ts us hk _ _ ihl ihr =>
    obtain ⟨hl, hr⟩ := Expr.wellFormed_and.mp hx
    rw [length_append, length_cons] at hfuel
    have hone : ReadsAt fuel 1 (.and l r) (ts ++ word "and" :: us) :=
      (ihl hl (by omega)).and (ihr hr (by omega))
    interval_cases k
    · exact hone.of_one
    · exact hone
  | not hk _ ih =>
    rw [length_cons] at hfuel
    obtain ⟨f, rfl⟩ : ∃ f, fuel = f + 1 := ⟨fuel - 1, by omega⟩
    exact (ih hx (by omega)).not.of_two hk
  | cmp hk hc =>
    have hpos : 1 ≤ fuel := by
      refine le_trans ?_ hfuel
      cases hc with
      | single | isIn => simp
    obtain ⟨f, rfl⟩ : ∃ f, fuel = f + 1 := ⟨fuel - 1, by omega⟩
    exact (ReadsAt.cmp (Expr.wellFormed_cmp.mp hx) hc).of_two hk
  | paren hk _ ih =>
    rw [length_cons, length_append, length_singleton] at hfuel
    obtain ⟨f, rfl⟩ : ∃ f, fuel = f + 1 := ⟨fuel - 1, by omega⟩
    exact (ih hx (by omega)).paren.of_two hk.2

theorem reads_parseExpr (h : x.Prints cls 0 ts) (hx : x.WellFormed cls) (hfuel : ts.length ≤ fuel) :
    Reads NotWord (parseExpr fuel) ts x := fun rest hrest =>
  (readsAt_of_prints h hx hfuel).reads_or rest hrest.exprEnds

/-! ## Queries -/

theorem reads_parseWhere (h : WherePrints cls filter ts) (hfilter : FilterWellFormed cls filter)
    (hfuel : ts.length ≤ fuel) : Reads NotWord (parseWhere fuel) ts filter := by
  intro rest hrest
  unfold parseWhere
  cases h with
  | none =>
    rw [nil_append, run_bind_ok (hrest.run_accept _)]
    rfl
  | @some x ts hx =>
    have hlen : ts.length ≤ fuel := (Nat.le_succ _).trans hfuel
    rw [cons_append, run_bind_ok (run_accept_word _ _)]
    show StateT.run (parseExpr fuel >>= _) _ = _
    rw [run_bind_ok (reads_parseExpr hx (hfilter x rfl) hlen rest hrest)]
    rfl

omit [Library] in
theorem run_parseClass {c : ClassRef} (h : c.Prints t) (hc : c.Printable cls) (rest : List Token) :
    parseClass.run (t :: rest) = .ok (c, rest) := by
  unfold parseClass
  cases h with
  | wildcard hname =>
    rw [run_bind_ok (run_expect_cons (word_kind _) _ _), word_text, if_pos hname]
    rfl
  | named action =>
    have hne : ¬(action = "event" ∨ action = "any") := by
      obtain h | ⟨action', h, -, hevent, hany⟩ := hc
      · cases h
      · cases h
        exact not_or.mpr ⟨hevent, hany⟩
    rw [run_bind_ok (run_expect_cons (word_kind _) _ _), word_text, if_neg hne]
    rfl

theorem reads_parsePipe {p : Pipe} (h : p.Prints cls ts) (hp : p.Printable cls)
    (hfuel : ts.length ≤ fuel) : Reads NotWord (parsePipe fuel) ts p := by
  intro rest hrest
  unfold parsePipe
  cases h with
  | @filter x ts hx =>
    have hlen : ts.length ≤ fuel := (Nat.le_succ _).trans hfuel
    have hwell : x.WellFormed cls := by
      obtain ⟨x', h, hx'⟩ | ⟨n, h, -⟩ := hp
      · cases h
        exact hx'
      · cases h
    rw [cons_append, run_bind_ok (run_accept_word _ _)]
    show StateT.run (parseExpr fuel >>= _) _ = _
    rw [run_bind_ok (reads_parseExpr hx hwell hlen rest hrest)]
    rfl
  | @limit ds n hds =>
    have hn : n < 2 ^ 63 := by
      obtain ⟨x', h, -⟩ | ⟨n', h, hn'⟩ := hp
      · cases h
      · simp only [Pipe.mk.injEq, Nat.cast_inj] at h
        omega
    have hwhere : (accept "where").run (word "limit" :: ⟨.number, String.ofList ds⟩ :: rest) =
        .ok (false, word "limit" :: ⟨.number, String.ofList ds⟩ :: rest) := by
      rw [run_accept_cons, if_neg (by simp)]
    have hnumber : (⟨.number, String.ofList ds⟩ : Token).kind = .number := rfl
    show StateT.run _ (word "limit" :: ⟨.number, String.ofList ds⟩ :: rest) = _
    rw [run_bind_ok hwhere]
    show StateT.run (accept "limit" >>= _) _ = _
    rw [run_bind_ok (run_accept_word _ _)]
    show StateT.run (expect .number _ >>= _) _ = _
    rw [run_bind_ok (run_expect_cons hnumber _ _), Go.atoi_digits hds hn]
    rfl

theorem rounds_pipes (h : PipesPrint cls ps ts) (hps : ∀ p ∈ ps, p.Printable cls)
    (hfuel : ts.length ≤ fuel) : Rounds NotWord (acceptKind .pipe) (parsePipe fuel) ts ps := by
  induction h with
  | nil => exact .nil
  | @cons p ps ts us hp _ ih =>
    obtain ⟨hp', hps'⟩ := forall_mem_cons.mp hps
    rw [length_cons, length_append] at hfuel
    refine .cons (s := [⟨.pipe, "|"⟩]) (by simp) ?_ ?_ (reads_parsePipe hp hp' (by omega))
      (ih hps' (by omega))
    · intro rest _
      rw [singleton_append, run_acceptKind_cons, if_pos rfl]
    · exact fun rest => ⟨_, _, rfl, by simp⟩

theorem reads_parseStage {st : Stage} (h : st.Prints cls ts)
    (hst : st.cls.Printable cls ∧ FilterWellFormed cls st.filter) (hfuel : ts.length ≤ fuel) :
    Reads NotWord (parseStage fuel) ts st := by
  intro rest hrest
  obtain ⟨hcls, hfilter⟩ := h
  rw [length_cons] at hfuel
  unfold parseStage
  rw [cons_append, run_bind_ok (run_parseClass hcls hst.1 _),
    run_bind_ok (reads_parseWhere hfilter hst.2 (by omega) rest hrest)]
  rfl

theorem rounds_stages {sts : List Stage} (h : StagesPrint cls sts ts)
    (hsts : ∀ st ∈ sts, st.cls.Printable cls ∧ FilterWellFormed cls st.filter)
    (hfuel : ts.length ≤ fuel) :
    Rounds NotWord (acceptKind .semicolon) (parseStage fuel) ts sts := by
  induction h with
  | nil => exact .nil
  | @cons st sts ts us hst _ ih =>
    obtain ⟨hst', hsts'⟩ := forall_mem_cons.mp hsts
    rw [length_cons, length_append] at hfuel
    refine .cons (s := [⟨.semicolon, ";"⟩]) (by simp) ?_ ?_ (reads_parseStage hst hst' (by omega))
      (ih hsts' (by omega))
    · intro rest _
      rw [singleton_append, run_acceptKind_cons, if_pos rfl]
    · exact fun rest => ⟨_, _, rfl, by simp⟩

theorem PipesPrint.notWord (h : PipesPrint cls ps ts) (hrest : NotWord rest) :
    NotWord (ts ++ rest) := by
  cases h with
  | nil => exact hrest
  | cons _ _ => exact ⟨_, _, rfl, by simp⟩

omit [Library] in
theorem notWord_eof : NotWord [eof] := ⟨.eof, [], rfl, by simp [eof]⟩

omit [Library] in
theorem ClassRef.Prints.text_ne {c : ClassRef} (h : c.Prints t) (hc : c.action ≠ "sequence") :
    t.text ≠ "sequence" := by
  cases h with
  | wildcard hname =>
    rintro rfl
    exact absurd hname (by decide)
  | named => exact hc

theorem run_parseSimple {cref : ClassRef} {pipes : List Pipe} (hcls : cref.Prints t)
    (hfilter : WherePrints cls filter ts) (hpipes : PipesPrint cls pipes us)
    (hq : ({ cls := cref, filter, pipes } : SimpleQuery).Printable cls)
    (hfuel : ts.length + us.length ≤ fuel) :
    (parseSimple fuel).run (t :: (ts ++ (us ++ [eof]))) =
      .ok ({ cls := cref, filter, pipes }, [eof]) := by
  have hstop : Stops NotWord (acceptKind .pipe) [eof] := ⟨notWord_eof, rfl⟩
  have hrounds : Rounds NotWord (acceptKind .pipe) (parsePipe fuel) us pipes :=
    rounds_pipes hpipes hq.pipes (by omega)
  have hloop := hrounds.loop (fun pipes pipe => pipes ++ [pipe]) []
  unfold parseSimple
  rw [run_bind_ok (run_parseClass hcls hq.cref _),
    run_bind_ok (reads_parseWhere hfilter hq.filter (by omega) _ (hpipes.notWord notWord_eof)),
    run_bind_ok (hloop _ hstop), foldl_concat]
  rfl

omit [Library] in
theorem run_parseBy (h : ByPrints field bs) (hfield : field = "" ∨ Model.knownField field = true)
    (hrest : (accept "by").run rest = .ok (false, rest)) :
    parseBy.run (bs ++ rest) = .ok (field, rest) := by
  unfold parseBy
  cases h with
  | none =>
    rw [nil_append, run_bind_ok hrest]
    rfl
  | some hne =>
    show StateT.run _ (word "by" :: word field :: rest) = _
    rw [run_bind_ok (run_accept_word _ _)]
    exact run_parseField (hfield.resolve_left hne) rest

omit [Library] in
theorem run_parseWithin (h : WithinPrints within ws)
    (hrest : (accept "within").run rest = .ok (false, rest)) :
    parseWithin.run (ws ++ rest) = .ok (within, rest) := by
  unfold parseWithin
  cases h with
  | none =>
    rw [nil_append, run_bind_ok hrest]
    rfl
  | @some ds n hds unit size hunit hn =>
    show StateT.run _ (word "within" :: ⟨.duration, String.ofList (ds ++ [unit])⟩ :: rest) = _
    rw [run_bind_ok (run_accept_word _ _)]
    show StateT.run parseDuration _ = _
    unfold parseDuration
    rw [run_bind_ok (run_next_cons _ _)]
    simp only [Go.parseDuration_digits hds hunit, if_pos hn]
    rfl

omit [Library] in
theorem WithinPrints.run_accept_by (h : WithinPrints within ws) (hrest : NotWord rest) :
    (accept "by").run (ws ++ rest) = .ok (false, ws ++ rest) := by
  cases h with
  | none => exact hrest.run_accept _
  | some => rw [cons_append, run_accept_cons, if_neg (by simp)]

theorem run_parseSequence {byField : String} {first : Stage} {stages : List Stage}
    (hby : ByPrints byField bs)
    (hwithin : ∀ rest, NotWord rest → parseWithin.run (ws ++ rest) = .ok (within, rest))
    (hnotBy : ∀ rest, NotWord rest → (accept "by").run (ws ++ rest) = .ok (false, ws ++ rest))
    (hfirst : first.Prints cls ts) (hrest : StagesPrint cls stages us)
    (hfield : byField = "" ∨ Model.knownField byField = true)
    (hstages : ∀ st ∈ first :: stages, st.cls.Printable cls ∧ FilterWellFormed cls st.filter)
    (htwo : 2 ≤ (first :: stages).length) (hfuel : ts.length + us.length ≤ fuel) :
    (parseSequence fuel).run (bs ++ (ws ++ ⟨.colon, ":"⟩ :: (ts ++ (us ++ [eof])))) =
      .ok ({ byField, within, stages := first :: stages }, [eof]) := by
  obtain ⟨hfirst', hrest'⟩ := forall_mem_cons.mp hstages
  have hcolon : NotWord (⟨.colon, ":"⟩ :: (ts ++ (us ++ [eof]))) := ⟨_, _, rfl, by simp⟩
  have hkind : (⟨.colon, ":"⟩ : Token).kind = .colon := rfl
  have hstop : Stops NotWord (acceptKind .semicolon) [eof] := ⟨notWord_eof, rfl⟩
  have hstage : Reads NotWord (parseStage fuel) ts first :=
    reads_parseStage hfirst hfirst' (by omega)
  have hrounds : Rounds NotWord (acceptKind .semicolon) (parseStage fuel) us stages :=
    rounds_stages hrest hrest' (by omega)
  have hchain := hstage.chain hrounds (fun st => [st]) fun sts st => sts ++ [st]
  have htwo' : ¬([first] ++ stages).length < 2 := not_lt.mpr htwo
  unfold parseSequence
  rw [run_bind_ok (run_parseBy hby hfield (hnotBy _ hcolon)), run_bind_ok (hwithin _ hcolon),
    run_bind_ok (run_expect_cons hkind _ _), ← append_assoc,
    run_bind_ok (hchain _ hstop), foldl_concat, if_neg htwo']
  rfl

end

theorem run_parseQuery (h : q.Prints cls ts) (hq : q.Printable cls) {fuel : ℕ}
    (hfuel : ts.length ≤ fuel) :
    (parseQuery fuel).run (ts ++ [eof]) = .ok (q, [eof]) := by
  unfold parseQuery
  cases h with
  | @simple cref filter pipes t ts us hcls hfilter hpipes =>
    rw [length_cons, length_append] at hfuel
    have hnot : (accept "sequence").run (t :: (ts ++ (us ++ [eof]))) =
        .ok (false, t :: (ts ++ (us ++ [eof]))) := by
      rw [run_accept_cons, if_neg fun h => hcls.text_ne hq.notSequence h.2]
    rw [cons_append, append_assoc, run_bind_ok hnot]
    rw [if_neg Bool.false_ne_true, run_bind_ok (run_parseSimple hcls hfilter hpipes hq (by omega))]
    rfl
  | @sequence byField within first rest bs ws ts us hby hwithin hfirst hrest =>
    simp only [length_cons, length_append] at hfuel
    have htokens : bs ++ (ws ++ ⟨.colon, ":"⟩ :: (ts ++ us)) ++ [eof] =
        bs ++ (ws ++ ⟨.colon, ":"⟩ :: (ts ++ (us ++ [eof]))) := by simp
    rw [cons_append, run_bind_ok (run_accept_word _ _), htokens]
    rw [if_pos rfl, run_bind_ok (run_parseSequence hby
      (fun _ hrest => run_parseWithin hwithin (hrest.run_accept _))
      (fun _ hrest => hwithin.run_accept_by hrest) hfirst hrest hq.byField hq.stages hq.two
      (by omega))]
    rfl

theorem compile_of_lex {tokens : List Token} (hlex : lex cls text.toList = .ok tokens)
    (hquery : (parseQuery tokens.length).run tokens = .ok (q, [eof])) :
    compile cls text = .ok q := by
  have hrun : (parseAll tokens.length).run tokens = .ok (q, [eof]) := by
    unfold parseAll
    rw [run_bind_ok hquery, run_bind_ok (run_peek_cons _ _)]
    rfl
  unfold compile
  rw [hlex]
  show Except.map Prod.fst ((parseAll tokens.length).run tokens) = _
  rw [hrun]
  rfl

theorem compile_of_printedAs (hq : q.Printable cls) (h : q.PrintedAs cls text) :
    compile cls text = .ok q := by
  obtain ⟨lead, tokens, body, hlead, htokens, hbody, htext⟩ := h
  have hlex : lex cls text.toList = .ok (tokens ++ [eof]) := by
    rw [htext, lex_blank_append hlead, lex_laid hbody]
  exact compile_of_lex hlex (run_parseQuery htokens hq (by simp))

end

/-! ## Every query can be written -/

theorem isIdentStart_of_ascii {c : Char} (h : isIdentStart .ascii c = true) :
    isIdentStart cls c = true := by
  simp only [isIdentStart, Bool.or_eq_true, beq_iff_eq] at h ⊢
  refine h.imp_left fun halpha => ?_
  have hrange := (Go.isAlpha_iff c).mp halpha
  rw [cls.isLetter_ascii c (by omega)]
  exact halpha

theorem isIdentPart_of_ascii {c : Char} (h : isIdentPart .ascii c = true) :
    isIdentPart cls c = true := by
  simp only [isIdentPart, Bool.or_eq_true, beq_iff_eq] at h ⊢
  refine h.imp_left fun h => h.imp_left fun h => h.imp (fun halpha => ?_) fun hdigit => ?_
  · have hrange := (Go.isAlpha_iff c).mp halpha
    rw [cls.isLetter_ascii c (by omega)]
    exact halpha
  · have hrange := (Go.isDigit_iff c).mp hdigit
    rw [cls.isDigit_ascii c (by omega)]
    exact hdigit

instance (text : String) : Decidable (IsIdent cls text) := by
  unfold IsIdent; infer_instance

theorem IsIdent.of_ascii {text : String} (h : IsIdent .ascii text) : IsIdent cls text := by
  refine ⟨?_, ?_⟩
  · obtain ⟨c, cs, htext, hc⟩ := exists_toList_cons h.1
    rw [htext]
    exact isIdentStart_of_ascii hc
  · rw [all_eq_true]
    exact fun c hc => isIdentPart_of_ascii (all_eq_true.mp h.2 c hc)

theorem isIdent_of_knownField (h : Model.knownField field = true) : IsIdent cls field := by
  have hall : ∀ entry ∈ Model.fieldAccessors, IsIdent .ascii entry.1 := by decide +kernel
  obtain ⟨accessor, haccessor⟩ := Option.isSome_iff_exists.mp h
  exact (hall _ (Go.mem_of_lookup haccessor)).of_ascii

def Written (cls : Classes) (ts : List Token) : Prop := ∀ t ∈ ts, ∃ cs, Spelled cls t cs

theorem written_nil : Written cls [] := fun _ ht => absurd ht not_mem_nil

theorem Written.cons {cs : List Char} (ht : Spelled cls t cs) (h : Written cls ts) :
    Written cls (t :: ts) :=
  forall_mem_cons.mpr ⟨⟨cs, ht⟩, h⟩

theorem Written.append {us : List Token} (h : Written cls ts) (h' : Written cls us) :
    Written cls (ts ++ us) :=
  forall_mem_append.mpr ⟨h, h'⟩

theorem Written.keyword {name : String} (hname : IsIdent .ascii name) (h : Written cls ts) :
    Written cls (word name :: ts) :=
  .cons (.ident hname.of_ascii) h

theorem Written.symbol (ht : t ∈ symbols) (h : Written cls ts) : Written cls (t :: ts) :=
  .cons (.symbol ht) h

theorem Written.exists_laid (h : Written cls ts) : ∃ cs, Laid cls ts cs := by
  induction ts with
  | nil => exact ⟨[], .nil fun _ hc => absurd hc not_mem_nil⟩
  | cons t ts ih =>
    obtain ⟨⟨cs, ht⟩, hts⟩ := forall_mem_cons.mp h
    obtain ⟨rest, hrest⟩ := ih hts
    have hgap : Blank [' '] := forall_mem_singleton.mpr (by decide)
    exact ⟨_, .cons ht hgap (fun _ => cons_ne_nil _ _) hrest⟩

theorem Op.written_token (op : Op) : Written cls [op.token] := by
  cases op with
  | contains | startswith | endswith | isIn => exact .keyword (by decide) written_nil
  | eq | ne | gt | lt | ge | le | regex => exact .symbol (by decide) written_nil

theorem Written.commaSeparated (h : Written cls ts) : Written cls (Hunt.commaSeparated ts) := by
  have hcommas : ∀ us, Written cls us → Written cls (us.flatMap fun t => [⟨.comma, ","⟩, t]) := by
    intro us hus t ht
    obtain ⟨u, hu, htu⟩ := mem_flatMap.mp ht
    have hpair : Written cls [⟨.comma, ","⟩, u] :=
      .symbol (by decide) (forall_mem_singleton.mpr (hus u hu))
    exact hpair t htu
  cases ts with
  | nil => exact h
  | cons t ts =>
    obtain ⟨ht, hts⟩ := forall_mem_cons.mp h
    exact forall_mem_cons.mpr ⟨ht, hcommas ts hts⟩

theorem isNumber_of_digits (h : Go.Digits ds n) : IsNumber cls (String.ofList ds) := by
  have hdigits : ∀ c ∈ ds, cls.isDigit c = true := isDigit_of_digits h
  unfold IsNumber
  rw [String.toList_ofList]
  constructor
  · cases ds with
    | nil => exact absurd rfl h.1
    | cons c ds => exact hdigits c mem_cons_self
  · rw [all_eq_true]
    exact fun c hc => by simp [isNumberPart, hdigits c hc]

theorem written_digits (h : Go.Digits ds n) : Written cls [⟨.number, String.ofList ds⟩] :=
  .cons (.number (isNumber_of_digits h)) written_nil

theorem ClassRef.exists_prints {c : ClassRef} (hc : c.Printable cls) :
    ∃ t, c.Prints t ∧ Written cls [t] := by
  obtain rfl | ⟨action, rfl, hident, -, -⟩ := hc
  · exact ⟨_, .wildcard (.inl rfl), .keyword (by decide) written_nil⟩
  · exact ⟨_, .named action, .cons (.ident hident) written_nil⟩

theorem exists_byPrints (h : field = "" ∨ Model.knownField field = true) :
    ∃ ts, ByPrints field ts ∧ Written cls ts := by
  obtain rfl | hknown := h
  · exact ⟨[], .none, written_nil⟩
  · have hne : field ≠ "" := by
      rintro rfl
      exact absurd hknown (by decide)
    have hfield : Written cls [word field] :=
      .cons (.ident (isIdent_of_knownField hknown)) written_nil
    exact ⟨_, .some hne, .keyword (by decide) hfield⟩

theorem exists_withinPrints {unit : Char} {size : ℕ} (hunit : (unit, size) ∈ Go.wholeUnits)
    (hn : n * size < 2 ^ 63) : ∃ ts, WithinPrints ((n * size : ℕ) : ℤ) ts ∧ Written cls ts := by
  have hdigits := Go.digits_toDigits n
  exact ⟨_, .some hdigits hunit hn,
    .keyword (by decide) (.cons (.duration hdigits hunit) written_nil)⟩

section
variable [Library]

theorem Literal.exists_prints {v : Literal} (hv : v.WellFormed cls) :
    ∃ t, v.Prints cls t ∧ Written cls [t] := by
  cases v with
  | text s => exact ⟨_, .string s, .cons (.string s (.inl rfl)) written_nil⟩
  | number written num => exact ⟨_, .number written num, .cons (.number hv.1) written_nil⟩

theorem exists_prints_values {vs : List Literal} (h : ∀ v ∈ vs, v.WellFormed cls) :
    ∃ ts, List.Forall₂ (Literal.Prints cls) vs ts ∧ Written cls ts := by
  induction vs with
  | nil => exact ⟨[], .nil, written_nil⟩
  | cons v vs ih =>
    obtain ⟨hv, hvs⟩ := forall_mem_cons.mp h
    obtain ⟨t, ht, hwt⟩ := Literal.exists_prints hv
    obtain ⟨ts, hts, hwts⟩ := ih hvs
    exact ⟨t :: ts, .cons ht hts, hwt.append hwts⟩

theorem Comparison.exists_prints {c : Comparison} (hc : c.WellFormed cls) :
    ∃ ts, c.Prints cls ts ∧ Written cls ts := by
  have hfield : Spelled cls (word c.field) c.field.toList :=
    .ident (isIdent_of_knownField hc.known)
  by_cases hop : c.op = .isIn
  · have hvalues : ∀ v ∈ c.values, v.WellFormed cls := fun v hv =>
      hc.literals v (mem_cons_of_mem _ hv)
    obtain ⟨ts, hts, hwts⟩ := exists_prints_values hvalues
    have hclose : Written cls [⟨.rparen, ")"⟩] := .symbol (by decide) written_nil
    have hlist : Written cls (⟨.lparen, "("⟩ :: (commaSeparated ts ++ [⟨.rparen, ")"⟩])) :=
      .symbol (by decide) (hwts.commaSeparated.append hclose)
    exact ⟨_, .isIn hop hts, .cons hfield (.keyword (by decide) hlist)⟩
  · obtain ⟨t, ht, hwt⟩ := Literal.exists_prints (hc.literals c.value mem_cons_self)
    exact ⟨_, .single hop ht, .cons hfield (c.op.written_token.append hwt)⟩

theorem Expr.exists_prints_of_level {x : Expr} (h : ∀ j ≤ x.level, x.Prints cls j ts)
    (hts : Written cls ts) {k : ℕ} (hk : k ≤ 2) : ∃ us, x.Prints cls k us ∧ Written cls us := by
  by_cases hlevel : k ≤ x.level
  · exact ⟨ts, h k hlevel, hts⟩
  · have hclose : Written cls [⟨.rparen, ")"⟩] := .symbol (by decide) written_nil
    exact ⟨_, .paren ⟨not_le.mp hlevel, hk⟩ (h 0 (Nat.zero_le _)),
      .symbol (by decide) (hts.append hclose)⟩

theorem Expr.exists_prints {x : Expr} (hx : x.WellFormed cls) {k : ℕ} (hk : k ≤ 2) :
    ∃ ts, x.Prints cls k ts ∧ Written cls ts := by
  induction x generalizing k with
  | or l r ihl ihr =>
    obtain ⟨hl, hr⟩ := Expr.wellFormed_or.mp hx
    obtain ⟨ts, hts, hwts⟩ := ihl hl (Nat.zero_le 2)
    obtain ⟨us, hus, hwus⟩ := ihr hr (Nat.le_succ 1)
    have hwritten : Written cls (ts ++ word "or" :: us) := hwts.append (.keyword (by decide) hwus)
    refine exists_prints_of_level (fun j hj => ?_) hwritten hk
    rw [Nat.le_zero.mp hj]
    exact .or hts hus
  | and l r ihl ihr =>
    obtain ⟨hl, hr⟩ := Expr.wellFormed_and.mp hx
    obtain ⟨ts, hts, hwts⟩ := ihl hl (Nat.le_succ 1)
    obtain ⟨us, hus, hwus⟩ := ihr hr le_rfl
    have hwritten : Written cls (ts ++ word "and" :: us) := hwts.append (.keyword (by decide) hwus)
    exact exists_prints_of_level (fun j hj => .and hj hts hus) hwritten hk
  | not x ih =>
    obtain ⟨ts, hts, hwts⟩ := ih hx le_rfl
    exact ⟨_, .not hk hts, .keyword (by decide) hwts⟩
  | cmp =>
    obtain ⟨ts, hts, hwts⟩ := Comparison.exists_prints (Expr.wellFormed_cmp.mp hx)
    exact ⟨ts, .cmp hk hts, hwts⟩

theorem exists_wherePrints {filter : Option Expr} (h : FilterWellFormed cls filter) :
    ∃ ts, WherePrints cls filter ts ∧ Written cls ts := by
  cases filter with
  | none => exact ⟨[], .none, written_nil⟩
  | some x =>
    obtain ⟨ts, hts, hwts⟩ := Expr.exists_prints (h x rfl) (Nat.zero_le 2)
    exact ⟨_, .some hts, .keyword (by decide) hwts⟩

theorem Pipe.exists_prints {p : Pipe} (hp : p.Printable cls) :
    ∃ ts, p.Prints cls ts ∧ Written cls ts := by
  obtain ⟨x, rfl, hx⟩ | ⟨n, rfl, -⟩ := hp
  · obtain ⟨ts, hts, hwts⟩ := Expr.exists_prints hx (Nat.zero_le 2)
    exact ⟨_, .filter hts, .keyword (by decide) hwts⟩
  · have hdigits := Go.digits_toDigits n
    exact ⟨_, .limit hdigits, .keyword (by decide) (written_digits hdigits)⟩

theorem exists_pipesPrint {ps : List Pipe} (h : ∀ p ∈ ps, p.Printable cls) :
    ∃ ts, PipesPrint cls ps ts ∧ Written cls ts := by
  induction ps with
  | nil => exact ⟨[], .nil, written_nil⟩
  | cons p ps ih =>
    obtain ⟨hp, hps⟩ := forall_mem_cons.mp h
    obtain ⟨ts, hts, hwts⟩ := Pipe.exists_prints hp
    obtain ⟨us, hus, hwus⟩ := ih hps
    exact ⟨_, .cons hts hus, .symbol (by decide) (hwts.append hwus)⟩

theorem Stage.exists_prints {st : Stage} (hcls : st.cls.Printable cls)
    (hfilter : FilterWellFormed cls st.filter) : ∃ ts, st.Prints cls ts ∧ Written cls ts := by
  obtain ⟨t, ht, hwt⟩ := ClassRef.exists_prints hcls
  obtain ⟨ts, hts, hwts⟩ := exists_wherePrints hfilter
  exact ⟨t :: ts, .mk ht hts, hwt.append hwts⟩

theorem exists_stagesPrint {sts : List Stage}
    (h : ∀ st ∈ sts, st.cls.Printable cls ∧ FilterWellFormed cls st.filter) :
    ∃ ts, StagesPrint cls sts ts ∧ Written cls ts := by
  induction sts with
  | nil => exact ⟨[], .nil, written_nil⟩
  | cons st sts ih =>
    obtain ⟨hst, hsts⟩ := forall_mem_cons.mp h
    obtain ⟨ts, hts, hwts⟩ := Stage.exists_prints hst.1 hst.2
    obtain ⟨us, hus, hwus⟩ := ih hsts
    exact ⟨_, .cons hts hus, .symbol (by decide) (hwts.append hwus)⟩

theorem Query.exists_prints {q : Query} (hq : q.Printable cls) :
    ∃ ts, q.Prints cls ts ∧ Written cls ts := by
  cases q with
  | simple =>
    obtain ⟨t, ht, hwt⟩ := ClassRef.exists_prints hq.cref
    obtain ⟨ts, hts, hwts⟩ := exists_wherePrints hq.filter
    obtain ⟨us, hus, hwus⟩ := exists_pipesPrint hq.pipes
    exact ⟨_, .simple ht hts hus, hwt.append (hwts.append hwus)⟩
  | sequence q =>
    obtain ⟨byField, within, stages⟩ := q
    obtain ⟨hby, ⟨n, unit, size, hunit, hn, rfl⟩, hstages, htwo⟩ := hq
    cases stages with
    | nil => simp at htwo
    | cons =>
      obtain ⟨hfirst, hrest⟩ := forall_mem_cons.mp hstages
      obtain ⟨bs, hbs, hwbs⟩ := exists_byPrints hby
      obtain ⟨ws, hws, hwws⟩ := exists_withinPrints hunit hn
      obtain ⟨ts, hts, hwts⟩ := Stage.exists_prints hfirst.1 hfirst.2
      obtain ⟨us, hus, hwus⟩ := exists_stagesPrint hrest
      have hwstages : Written cls (⟨.colon, ":"⟩ :: (ts ++ us)) :=
        .symbol (by decide) (hwts.append hwus)
      exact ⟨_, .sequence hbs hws hts hus,
        .keyword (by decide) (hwbs.append (hwws.append hwstages))⟩

theorem exists_printedAs {q : Query} (hq : q.Printable cls) : ∃ text, q.PrintedAs cls text := by
  obtain ⟨tokens, htokens, hwritten⟩ := Query.exists_prints hq
  obtain ⟨body, hbody⟩ := hwritten.exists_laid
  refine ⟨String.ofList body, [], tokens, body, ?_, htokens, hbody, String.toList_ofList⟩
  exact fun _ hc => absurd hc not_mem_nil

/-- Every query can be printed in the grammar, and compiling any text it is printed as gives the
query back. -/
theorem compile_printed (q : Query) (hq : q.Printable cls) :
    (∃ text, q.PrintedAs cls text) ∧
      ∀ text, q.PrintedAs cls text → compile cls text = .ok q :=
  ⟨exists_printedAs hq, fun _ => compile_of_printedAs hq⟩

end

/-- `sequence by user.id within 5m : exec where not (process.name == "sh" or process.pid > 1) ;
event`, over the plain library. -/
def shellSequence : @Query .plain :=
  letI : Library := .plain
  let name : Comparison := { field := "process.name", op := .eq, value := .text "sh" }
  let pid : Comparison := { field := "process.pid", op := .gt, value := .number "1" (1 : ℤ) }
  .sequence
    { byField := "user.id"
      within := 300000000000
      stages :=
        [{ cls := { action := "exec" }, filter := some (.not (.or (.cmp name) (.cmp pid))) },
         { cls := { all := true } }] }

theorem compile_printed_shellSequence :
    letI : Library := .plain
    (∃ text, shellSequence.PrintedAs .ascii text) ∧
      ∀ text, shellSequence.PrintedAs .ascii text → compile .ascii text = .ok shellSequence := by
  let _ : Library := .plain
  refine compile_printed shellSequence ?_
  have hname : (.cmp { field := "process.name", op := .eq, value := .text "sh" } :
      Expr).WellFormed .ascii :=
    Expr.wellFormed_cmp.mpr ⟨by decide, rfl, by simp [Literal.WellFormed], by simp⟩
  have hpid : (.cmp { field := "process.pid", op := .gt, value := .number "1" (1 : ℤ) } :
      Expr).WellFormed .ascii :=
    Expr.wellFormed_cmp.mpr ⟨by decide, rfl, by
      simp only [mem_singleton, forall_eq]
      exact ⟨⟨by decide, by decide⟩, (by decide : Go.parseInt64 "1" = some 1)⟩, by simp⟩
  refine ⟨.inr (by decide), ⟨5, 'm', 60000000000, by decide, by decide, rfl⟩, ?_, le_rfl⟩
  refine forall_mem_cons.mpr ⟨⟨.inr ⟨"exec", rfl, by decide, by decide, by decide⟩, ?_⟩, ?_⟩
  · rintro x ⟨⟩
    exact Expr.wellFormed_or.mpr ⟨hname, hpid⟩
  · refine forall_mem_singleton.mpr ⟨.inl rfl, ?_⟩
    rintro x ⟨⟩

end ArgusEdr.Hunt
