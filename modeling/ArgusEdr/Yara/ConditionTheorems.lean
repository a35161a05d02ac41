import ArgusEdr.Yara.CompileTheorems

/-!
# Reading conditions back

A condition is printed without the parentheses its nesting has but precedence does not ask for, so it
comes back nested to the left, with the same meaning (`Condition.Same`). `Splits` says that a text is
operands with a keyword between them; it is built up along the condition (`Splits.join`) and read by
the loops of `parseOr` and `parseAnd` (`Splits.reads`). `parseCondition_reads` is the induction.
-/

namespace ArgusEdr.Yara

open List

open Condition (eval)
open Go (Bytes ascii)
open Reading Reading.Cursor

/-! ## Numbers and quantifiers -/

theorem digit_byte {c : Char} (h : c.isDigit = true) :
    isDigit (byte c) = true ∧ (byte c - byte '0').toNat = c.toNat - '0'.toNat := by
  obtain ⟨hlo, hhi⟩ := Char.isDigit_iff_toNat.mp h
  have hall : ∀ n : Fin 10, isDigit (UInt8.ofNat ('0'.toNat + n)) = true ∧
      (UInt8.ofNat ('0'.toNat + n) - byte '0').toNat = n := by
    decide +kernel
  have hlt : c.toNat - '0'.toNat < 10 := by
    have : '9'.toNat = '0'.toNat + 9 := rfl
    omega
  have hc := hall ⟨c.toNat - '0'.toNat, hlt⟩
  rwa [Fin.val_mk, Nat.add_sub_cancel' hlo] at hc

variable {ds : List Char} {rest : Bytes} {x y : Condition}
  {node : Condition → Condition → Condition} {e : Expr} {strings : List Declaration}

/-- The loop of `parseNumber` is the number the digits are the expansion of. -/
theorem foldl_digits (hds : ∀ c ∈ ds, c.isDigit = true) (acc : ℕ) :
    (ds.map byte).foldl (fun n c => n * 10 + Int64.ofNat (c - byte '0').toNat) (Int64.ofNat acc) =
      Int64.ofNat (Nat.ofDigitChars 10 ds acc) := by
  induction ds generalizing acc with
  | nil => rfl
  | cons c ds ih =>
    obtain ⟨hc, hds⟩ := forall_mem_cons.mp hds
    have hstep : Int64.ofNat acc * 10 + Int64.ofNat (byte c - byte '0').toNat =
        Int64.ofNat (10 * acc + (c.toNat - '0'.toNat)) := by
      rw [(digit_byte hc).2, Int64.ofNat_add, Int64.ofNat_mul, Int64.mul_comm]
      rfl
    rw [map_cons, foldl_cons, hstep, ih hds, Nat.ofDigitChars_cons]

theorem run_parseNumber {before : Bytes} (hds : ∀ d ∈ ds, d.isDigit = true)
    (hrest : ∀ b ∈ rest.head?, isDigit b = false) :
    parseNumber.run (between before (ds.map byte ++ rest)) =
      .ok (Int64.ofNat (Nat.ofDigitChars 10 ds 0), between (before ++ ds.map byte) rest) := by
  have hall : ∀ b ∈ ds.map byte, isDigit b = true := by
    intro b hb
    obtain ⟨d, hd, rfl⟩ := mem_map.mp hb
    exact (digit_byte (hds d hd)).1
  have hstop : rest.takeWhile isDigit = [] := by
    cases rest with
    | nil => rfl
    | cons b rest =>
      rw [takeWhile_cons, hrest b rfl]
      rfl
  have hrun : (ds.map byte ++ rest).takeWhile isDigit = ds.map byte := by
    rw [takeWhile_append_of_pos hall, hstop, append_nil]
  show Except.ok (((between before (ds.map byte ++ rest)).rest.takeWhile
    isDigit).foldl _ (Int64.ofNat 0), _) = _
  rw [rest_between, hrun, foldl_digits hds, advance_between]

theorem parseNumber_reads (m : ℕ) :
    Reads Ends parseNumber (ascii (Go.formatUint m)) (Int64.ofNat m) := by
  intro before rest hrest
  obtain ⟨-, hds, hvalue⟩ := Go.digits_toDigits m
  have htext : ascii (Go.formatUint m) = (Nat.toDigits 10 m).map byte := by
    rw [ascii, Go.toList_formatUint]
    rfl
  rw [htext, run_parseNumber hds fun b hb => (Bool.or_eq_false_iff.mp (hrest b hb)).2, hvalue]

theorem exists_digit (m : ℕ) :
    ∃ c ds, ascii (Go.formatUint m) = c :: ds ∧ isDigit c = true := by
  obtain ⟨hne, hds, -⟩ := Go.digits_toDigits m
  obtain ⟨d, ds, hcons⟩ := exists_cons_of_ne_nil hne
  refine ⟨byte d, ds.map byte, ?_, (digit_byte (hds d (hcons ▸ mem_cons_self))).1⟩
  rw [ascii, Go.toList_formatUint, hcons]
  rfl

theorem parseQuantifier_reads (need : Int64) :
    Reads Ends (parseQuantifier need) (ascii " of them") (.quantNode need) := by
  have hof := acceptKeyword_reads "of" (isIdent_ascii (by simp)) blank_space
  have hthem := acceptKeyword_reads "them" (isIdent_ascii (by simp)) blank_space
  intro before rest hrest
  have hends : Ends (([byte ' '] ++ ascii "them") ++ rest) := blank_space.ends (by simp) _
  show (parseQuantifier need).run (between before
    (([byte ' '] ++ ascii "of") ++ (([byte ' '] ++ ascii "them") ++ rest))) = _
  rw [parseQuantifier, run_bind_ok (hof before _ hends)]
  show (acceptKeyword "them" >>= _ : Parser Condition).run _ = _
  rw [run_bind_ok (hthem _ rest hrest), append_assoc]
  rfl

/-! ## Primaries -/

theorem parseUnary_of_parsePrimary {follow : Bytes → Prop} {n : ℕ} {text : Bytes} {C : Condition}
    (hword : ∀ rest, follow rest → NextWord (· ≠ ascii "not") (text ++ rest))
    (h : Reads follow (parsePrimary (parseOr (parseUnary n))) text C) :
    Reads follow (parseUnary (n + 1)) text C := by
  intro before rest hrest
  rw [parseUnary, run_bind_ok ((hword rest hrest).declines before)]
  exact h before rest hrest

section
variable {gap : Bytes} (hgap : Blank gap) (inner : Parser Condition)
include hgap

theorem parsePrimary_ident {name : Bytes} (h : name = [] ∨ IsIdent name) :
    Reads Ends (parsePrimary inner) (gap ++ byte '$' :: name) (.identNode (byte '$' :: name)) := by
  intro before rest hrest
  have hsolid : Solid (byte '$' :: name ++ rest) := ⟨by decide, by decide⟩
  have hhead : (byte '$' :: name ++ rest).head? = some (byte '$') := rfl
  rw [parsePrimary, append_assoc, run_bind_ok (skipSpace_reads hgap before _ hsolid),
    run_bind_ok (run_peekChar hhead _), if_neg (by decide), if_pos rfl,
    run_bind_ok (parseStringID_reads h _ rest hrest), append_assoc]
  rfl

theorem parsePrimary_number (m : ℕ) :
    Reads Ends (parsePrimary inner) (gap ++ (ascii (Go.formatUint m) ++ ascii " of them"))
      (.quantNode (Int64.ofNat m)) := by
  intro before rest hrest
  have hends : Ends (ascii " of them" ++ rest) := blank_space.ends (by simp) _
  obtain ⟨c, ds, htext, hc⟩ := exists_digit m
  obtain ⟨hsolid, -, hparen, hdollar⟩ := isDigit_spec c hc
  have hhead : ∀ after, (ascii (Go.formatUint m) ++ after).head? = some c := by
    intro after
    rw [htext]
    rfl
  have hsolid' : ∀ after, Solid (ascii (Go.formatUint m) ++ after) := by
    intro after
    rw [htext]
    exact hsolid
  rw [parsePrimary, append_assoc, append_assoc,
    run_bind_ok (skipSpace_reads hgap before _ (hsolid' _)), run_bind_ok (run_peekChar (hhead _) _),
    if_neg hparen, if_neg hdollar, if_pos hc, run_bind_ok (parseNumber_reads m _ _ hends),
    parseQuantifier_reads _ _ rest hrest, append_assoc, append_assoc]

theorem run_parsePrimary_word {w : Bytes} (hw : IsIdent w) (hrest : Ends rest) (before : Bytes) :
    (parsePrimary inner).run (between before (gap ++ (w ++ rest))) =
      (if w = ascii "true" then return .boolNode true
        else if w = ascii "false" then return .boolNode false
        else if w = ascii "all" then parseQuantifier (-1)
        else if w = ascii "any" then parseQuantifier 0
        else errf "unexpected token %q in condition" [shown w] : Parser Condition).run
        (between (before ++ (gap ++ w)) rest) := by
  have hsolid := hw.solid rest
  have hword := hw.word hrest
  cases w with
  | nil => exact hw.elim
  | cons c cs =>
    obtain ⟨-, hdigit, hparen, hdollar, -⟩ := isAlpha_spec c hw.1
    have hhead : (c :: cs ++ rest).head? = some c := rfl
    rw [parsePrimary, run_bind_ok (skipSpace_reads hgap before _ hsolid),
      run_bind_ok (run_peekChar hhead _), if_neg hparen, if_neg hdollar, if_neg hdigit,
      run_bind_ok (run_parseIdent hword _), append_assoc]

theorem parsePrimary_bool (v : Bool) :
    Reads Ends (parsePrimary inner) (gap ++ ascii (if v then "true" else "false"))
      (.boolNode v) := by
  intro before rest hrest
  rw [append_assoc]
  cases v with
  | true =>
    rw [if_pos rfl, run_parsePrimary_word hgap inner (isIdent_ascii (by simp)) hrest, if_pos rfl]
    rfl
  | false =>
    rw [if_neg (by decide), run_parsePrimary_word hgap inner (isIdent_ascii (by simp)) hrest,
      if_neg (by simp [ascii]), if_pos rfl]
    rfl

theorem parsePrimary_quantifier {word : String} {need : Int64}
    (h : word = "all" ∧ need = -1 ∨ word = "any" ∧ need = 0) :
    Reads Ends (parsePrimary inner) (gap ++ (ascii word ++ ascii " of them"))
      (.quantNode need) := by
  intro before rest hrest
  have hends : Ends (ascii " of them" ++ rest) := blank_space.ends (by simp) _
  have hident : IsIdent (ascii word) := isIdent_ascii (by rcases h with h | h <;> simp [h.1])
  have hquantifier := parseQuantifier_reads need (before ++ (gap ++ ascii word)) rest hrest
  rw [append_assoc, append_assoc, run_parsePrimary_word hgap inner hident hends]
  simp only [append_assoc] at hquantifier ⊢
  rw [← hquantifier]
  rcases h with ⟨rfl, rfl⟩ | ⟨rfl, rfl⟩
  · rw [if_neg (by simp [ascii]), if_neg (by simp [ascii]), if_pos rfl]
  · rw [if_neg (by simp [ascii]), if_neg (by simp [ascii]), if_neg (by simp [ascii]),
      if_pos rfl]

theorem parsePrimary_parens {follow : Bytes → Prop} {text : Bytes} {C : Condition}
    {inner : Parser Condition} (hinner : Reads follow inner text C)
    (hclose : ∀ rest, follow (byte ')' :: rest)) :
    Reads Anything (parsePrimary inner) (gap ++ byte '(' :: (text ++ [byte ')'])) C := by
  intro before rest _
  have hopen : ∀ after, Solid (byte '(' :: after) := fun _ => ⟨by decide, by decide⟩
  have hclosed : Solid (byte ')' :: rest) := ⟨by decide, by decide⟩
  rw [parsePrimary, append_assoc, cons_append, append_assoc, singleton_append,
    run_bind_ok (skipSpace_reads hgap before _ (hopen _)),
    run_bind_ok (run_peekChar head?_cons _), if_pos rfl, run_bind_ok (run_skip_one _ _ _),
    run_bind_ok (hinner _ _ (hclose rest)), run_bind_ok (run_skipSpace_solid hclosed _),
    run_bind_ok (run_peekChar head?_cons _), if_neg (by decide),
    run_bind_ok (run_skip_one _ _ _), run_pure]
  simp

end

/-! ## Operands -/

theorem Condition.Same.trans {z : Condition} (h : x.Same y) (h' : y.Same z) : x.Same z :=
  fun hits total count => (h hits total count).trans (h' hits total count)

/-- A binary operator: how its operands are grouped makes no difference. -/
structure Associates (node : Condition → Condition → Condition) : Prop where
  assoc : ∀ x y z, (node (node x y) z).Same (node x (node y z))
  congr : ∀ {x x' y y'}, x.Same x' → y.Same y' → (node x y).Same (node x' y')

theorem associates_andNode : Associates .andNode where
  assoc x y z hits total count := by simp [eval, Bool.and_assoc]
  congr hx hy hits total count := by simp [eval, hx hits, hy hits]

theorem associates_orNode : Associates .orNode where
  assoc x y z hits total count := by simp [eval, Bool.or_assoc]
  congr hx hy hits total count := by simp [eval, hx hits, hy hits]

theorem Condition.Same.refl (x : Condition) : x.Same x := fun _ _ _ => rfl

theorem Associates.foldl_congr (h : Associates node) (hxy : x.Same y) (zs : List Condition) :
    (zs.foldl node x).Same (zs.foldl node y) := by
  induction zs generalizing x y with
  | nil => exact hxy
  | cons z zs ih => exact ih (h.congr hxy (.refl z))

theorem Associates.foldl_same (h : Associates node) (x y : Condition) (zs : List Condition) :
    (zs.foldl node (node x y)).Same (node x (zs.foldl node y)) := by
  induction zs generalizing y with
  | nil => exact .refl _
  | cons z zs ih => exact (h.foldl_congr (h.assoc x y z) zs).trans (ih (node y z))

/-- The text is operands with the keyword between them, which together mean `C`. -/
def Splits (kw : String) (node : Condition → Condition → Condition) (follow : Bytes → Prop)
    (operand : Parser Condition) (text : Bytes) (C : Condition) : Prop :=
  ∃ t us a as, t ≠ [] ∧ text = t ++ us ∧ Reads follow operand t a ∧
    Rounds follow (acceptKeyword kw) operand us as ∧ (as.foldl node a).Same C

section
variable {kw : String} {node : Condition → Condition → Condition} {follow : Bytes → Prop}
  {operand : Parser Condition} {text : Bytes} {C : Condition}

theorem Splits.single {a : Condition} (hne : text ≠ []) (h : Reads follow operand text a)
    (hsame : a.Same C) : Splits kw node follow operand text C :=
  ⟨text, [], a, [], hne, (append_nil text).symm, h, .nil, hsame⟩

theorem Splits.join {text' : Bytes} {C' : Condition} (hnode : Associates node)
    (hkw : IsIdent (ascii kw))
    (hfollow : ∀ rest, follow ([byte ' '] ++ (ascii kw ++ byte ' ' :: rest)))
    (h : Splits kw node follow operand text C)
    (h' : Splits kw node follow operand (byte ' ' :: text') C') :
    Splits kw node follow operand
      (text ++ ([byte ' '] ++ (ascii kw ++ byte ' ' :: text'))) (node C C') := by
  obtain ⟨t, us, a, as, hne, rfl, hfirst, hrounds, hsame⟩ := h
  obtain ⟨t', us', a', as', hne', htext', hfirst', hrounds', hsame'⟩ := h'
  obtain ⟨t', rfl⟩ : ∃ t'', t' = byte ' ' :: t'' := by
    cases t' with
    | nil => exact absurd rfl hne'
    | cons c t' =>
      injection htext' with hc _
      exact ⟨t', by rw [hc]⟩
  have hseparator : ∀ before rest, (acceptKeyword kw).run
      (between before (([byte ' '] ++ ascii kw) ++ (byte ' ' :: t' ++ rest))) =
        .ok (true, between (before ++ ([byte ' '] ++ ascii kw)) (byte ' ' :: t' ++ rest)) :=
    fun before rest => acceptKeyword_reads kw hkw blank_space before _
      (blank_space.ends (by simp) (t' ++ rest))
  have hround := Rounds.cons (cons_ne_nil _ _) hseparator
    (fun rest => by simpa using hfollow (t' ++ rest)) hfirst' hrounds'
  refine ⟨t, _, a, _, hne, ?_, hfirst, hrounds.append hround, ?_⟩
  · rw [htext']
    simp
  · rw [foldl_append, foldl_cons]
    exact (hnode.foldl_same _ _ _).trans (hnode.congr hsame hsame')

theorem Splits.reads (h : Splits kw node follow operand text C) :
    ∃ C', C'.Same C ∧ Reads (fun rest => follow rest ∧ Declines (acceptKeyword kw) rest)
      (chain (acceptKeyword kw) operand node) text C' := by
  obtain ⟨t, us, a, as, -, rfl, hfirst, hrounds, hsame⟩ := h
  exact ⟨as.foldl node a, hsame, hfirst.chain hrounds node⟩

end

/-! ## Conditions -/

abbrev AfterAnd (rest : Bytes) : Prop := Ends rest ∧ Declines (acceptKeyword "and") rest

abbrev AfterOr (rest : Bytes) : Prop := AfterAnd rest ∧ Declines (acceptKeyword "or") rest

/-- How the parsers of the three levels read a condition, after a gap and with enough steps. -/
structure ReadBack (e : Expr) : Prop where
  unary : ∀ n gap, Blank gap → (gap ++ e.print 2).length < n →
    ∃ C, C.Same e.condition ∧ Reads Ends (parseUnary n) (gap ++ e.print 2) C
  and : ∀ n gap, Blank gap → (gap ++ e.print 1).length < n →
    Splits "and" .andNode Ends (parseUnary n) (gap ++ e.print 1) e.condition
  or : ∀ n gap, Blank gap → (gap ++ e.print 0).length < n →
    Splits "or" .orNode AfterAnd (parseAnd (parseUnary n)) (gap ++ e.print 0) e.condition

theorem Expr.print_ne_nil (e : Expr) (level : ℕ) : e.print level ≠ [] := by
  cases e with
  | ident | not => simp [Expr.print, ascii]
  | bool v => cases v <;> simp [Expr.print, ascii]
  | allOfThem | anyOfThem => simp [Expr.print, ascii]
  | ofThem => simp [Expr.print, ascii]
  | and => cases h : decide (1 < level) <;> simp [Expr.print, enclose, h, ascii]
  | or => cases h : decide (0 < level) <;> simp [Expr.print, enclose, h, ascii]

theorem ReadBack.of_unary (h₁ : e.print 1 = e.print 2) (h₀ : e.print 0 = e.print 2)
    (h : ∀ n gap, Blank gap → (gap ++ e.print 2).length < n →
      ∃ C, C.Same e.condition ∧ Reads Ends (parseUnary n) (gap ++ e.print 2) C) : ReadBack e := by
  have hne : ∀ gap, gap ++ e.print 2 ≠ [] := fun gap =>
    append_ne_nil_of_right_ne_nil _ (e.print_ne_nil 2)
  have hand : ∀ n gap, Blank gap → (gap ++ e.print 2).length < n →
      Splits "and" .andNode Ends (parseUnary n) (gap ++ e.print 2) e.condition := by
    intro n gap hgap hn
    obtain ⟨C, hsame, hC⟩ := h n gap hgap hn
    exact .single (hne gap) hC hsame
  refine ⟨h, ?_, ?_⟩
  · rw [h₁]
    exact hand
  · rw [h₀]
    intro n gap hgap hn
    obtain ⟨C, hsame, hC⟩ := (hand n gap hgap hn).reads
    exact .single (hne gap) hC hsame

theorem afterOr_of_nextWord (hends : Ends rest) (h : NextWord (· = []) rest) : AfterOr rest := by
  have hdeclines : ∀ kw : String, ascii kw ≠ [] → Declines (acceptKeyword kw) rest := by
    intro kw hkw
    refine (h.mono fun w hw => ?_).declines
    rw [hw]
    exact hkw.symm
  exact ⟨⟨hends, hdeclines "and" (by simp [ascii])⟩, hdeclines "or" (by simp [ascii])⟩

theorem afterOr_parenthesis (rest : Bytes) : AfterOr (byte ')' :: rest) := by
  have hword : NextWord (· = []) ([] ++ byte ')' :: rest) :=
    nextWord_nil (P := (· = [])) rfl blank_nil (by decide) rest
  refine afterOr_of_nextWord ?_ hword
  rintro c ⟨⟩
  decide

theorem unary_of_or (hprint : e.print 2 = byte '(' :: (e.print 0 ++ [byte ')']))
    (hor : ∀ n gap, Blank gap → (gap ++ e.print 0).length < n →
      Splits "or" .orNode AfterAnd (parseAnd (parseUnary n)) (gap ++ e.print 0) e.condition)
    (n : ℕ) (gap : Bytes) (hgap : Blank gap) (hn : (gap ++ e.print 2).length < n) :
    ∃ C, C.Same e.condition ∧ Reads Ends (parseUnary n) (gap ++ e.print 2) C := by
  rw [hprint] at hn ⊢
  simp only [length_append, length_cons, length_nil] at hn
  obtain ⟨m, rfl⟩ : ∃ m, n = m + 1 := ⟨n - 1, by omega⟩
  obtain ⟨C, hsame, hC⟩ := (hor m [] blank_nil (by rw [nil_append]; omega)).reads
  refine ⟨C, hsame, parseUnary_of_parsePrimary ?_ ?_⟩
  · intro rest _
    rw [append_assoc]
    exact nextWord_nil (by simp [ascii]) hgap (by decide) _
  · exact (parsePrimary_parens hgap hC afterOr_parenthesis).mono fun _ _ => trivial

theorem ReadBack.and_expr {a b : Expr} (ha : ReadBack a) (hb : ReadBack b) :
    ReadBack (.and a b) := by
  have hand : ∀ n gap, Blank gap → (gap ++ (Expr.and a b).print 1).length < n →
      Splits "and" .andNode Ends (parseUnary n) (gap ++ (Expr.and a b).print 1)
        (Expr.and a b).condition := by
    intro n gap hgap hn
    have htext : gap ++ (Expr.and a b).print 1 =
        (gap ++ a.print 1) ++ ([byte ' '] ++ (ascii "and" ++ byte ' ' :: b.print 1)) := by
      simp [Expr.print, enclose, ascii, byte]
    rw [htext] at hn ⊢
    simp only [length_append, length_cons] at hn
    refine Splits.join associates_andNode (isIdent_ascii (by simp)) (fun rest => ?_)
      (ha.and n gap hgap ?_) (hb.and n [byte ' '] blank_space ?_)
    · exact blank_space.ends (by simp) _
    · rw [length_append]
      omega
    · rw [singleton_append, length_cons]
      omega
  have hor : ∀ n gap, Blank gap → (gap ++ (Expr.and a b).print 0).length < n →
      Splits "or" .orNode AfterAnd (parseAnd (parseUnary n)) (gap ++ (Expr.and a b).print 0)
        (Expr.and a b).condition := by
    intro n gap hgap hn
    obtain ⟨C, hsame, hC⟩ := (hand n gap hgap hn).reads
    exact .single (append_ne_nil_of_right_ne_nil _ (Expr.print_ne_nil _ 0)) hC hsame
  exact ⟨unary_of_or rfl hor, hand, hor⟩

theorem ReadBack.or_expr {a b : Expr} (ha : ReadBack a) (hb : ReadBack b) :
    ReadBack (.or a b) := by
  have hor : ∀ n gap, Blank gap → (gap ++ (Expr.or a b).print 0).length < n →
      Splits "or" .orNode AfterAnd (parseAnd (parseUnary n)) (gap ++ (Expr.or a b).print 0)
        (Expr.or a b).condition := by
    intro n gap hgap hn
    have htext : gap ++ (Expr.or a b).print 0 =
        (gap ++ a.print 0) ++ ([byte ' '] ++ (ascii "or" ++ byte ' ' :: b.print 0)) := by
      simp [Expr.print, enclose, ascii, byte]
    rw [htext] at hn ⊢
    simp only [length_append, length_cons] at hn
    refine Splits.join associates_orNode (isIdent_ascii (by simp)) (fun rest => ?_)
      (ha.or n gap hgap ?_) (hb.or n [byte ' '] blank_space ?_)
    · have hword : IsIdent (ascii "or") := isIdent_ascii (by simp)
      have hends : Ends (byte ' ' :: rest) := blank_space.ends (by simp) rest
      have hnext : NextWord (· ≠ ascii "and")
          ([byte ' '] ++ (ascii "or" ++ byte ' ' :: rest)) :=
        hword.nextWord (by simp [ascii]) blank_space hends
      exact ⟨blank_space.ends (by simp) _, hnext.declines⟩
    · rw [length_append]
      omega
    · rw [singleton_append, length_cons]
      omega
  have hunary := unary_of_or rfl hor
  refine ⟨hunary, fun n gap hgap hn => ?_, hor⟩
  obtain ⟨C, hsame, hC⟩ := hunary n gap hgap hn
  exact .single (append_ne_nil_of_right_ne_nil _ (Expr.print_ne_nil _ 1)) hC hsame

theorem ReadBack.not_expr (h : ReadBack e) : ReadBack (.not e) := by
  refine .of_unary rfl rfl fun n gap hgap hn => ?_
  have htext : gap ++ (Expr.not e).print 2 =
      (gap ++ ascii "not") ++ ([byte ' '] ++ e.print 2) := by
    simp [Expr.print, ascii, byte]
  rw [htext] at hn ⊢
  rw [length_append] at hn
  have hkw : 0 < (gap ++ ascii "not").length := by simp [ascii]
  obtain ⟨m, rfl⟩ : ∃ m, n = m + 1 := ⟨n - 1, by omega⟩
  obtain ⟨C, hsame, hC⟩ := h.unary m [byte ' '] blank_space (by omega)
  refine ⟨.notNode C, fun hits total count => ?_, fun before rest hrest => ?_⟩
  · rw [Expr.condition, eval, eval, hsame]
  · have hends : Ends (([byte ' '] ++ e.print 2) ++ rest) := blank_space.ends (by simp) _
    rw [append_assoc, parseUnary,
      run_bind_ok (acceptKeyword_reads "not" (isIdent_ascii (by simp)) hgap before _ hends)]
    show (parseUnary m >>= _ : Parser Condition).run _ = _
    rw [run_bind_ok (hC _ rest hrest), append_assoc]
    rfl

theorem ReadBack.of_primary (h₁ : e.print 1 = e.print 2) (h₀ : e.print 0 = e.print 2)
    (hword : ∀ gap rest, Blank gap → Ends rest →
      NextWord (· ≠ ascii "not") (gap ++ (e.print 2 ++ rest)))
    (h : ∀ gap inner, Blank gap →
      Reads Ends (parsePrimary inner) (gap ++ e.print 2) e.condition) : ReadBack e := by
  refine .of_unary h₁ h₀ fun n gap hgap hn => ?_
  obtain ⟨m, rfl⟩ : ∃ m, n = m + 1 := ⟨n - 1, by omega⟩
  refine ⟨e.condition, .refl _, parseUnary_of_parsePrimary ?_ (h gap _ hgap)⟩
  intro rest hrest
  rw [append_assoc]
  exact hword gap rest hgap hrest

theorem readBack (hscoped : e.Scoped strings) : ReadBack e := by
  induction e with
  | ident =>
    obtain ⟨d, -, hname⟩ := mem_map.mp hscoped
    refine .of_primary rfl rfl (fun gap rest hgap _ => ?_) fun gap inner hgap =>
      parsePrimary_ident hgap inner (hname ▸ d.name_ident)
    exact nextWord_nil (by simp [ascii]) hgap (by decide) _
  | bool v =>
    refine .of_primary rfl rfl (fun gap rest hgap hrest => ?_) fun gap inner hgap =>
      parsePrimary_bool hgap inner v
    have hword : IsIdent (ascii (if v then "true" else "false")) :=
      isIdent_ascii (by cases v <;> simp)
    exact hword.nextWord (by cases v <;> simp [ascii]) hgap hrest
  | allOfThem =>
    refine .of_primary rfl rfl (fun gap rest hgap _ => ?_) fun gap inner hgap => ?_
    · have hword : IsIdent (ascii "all") := isIdent_ascii (by simp)
      exact hword.nextWord (by simp [ascii]) hgap
        (blank_space.ends (by simp) (ascii "of them" ++ rest))
    · have htext : Expr.allOfThem.print 2 = ascii "all" ++ ascii " of them" := rfl
      rw [htext]
      exact parsePrimary_quantifier hgap inner (.inl ⟨rfl, rfl⟩)
  | anyOfThem =>
    refine .of_primary rfl rfl (fun gap rest hgap _ => ?_) fun gap inner hgap => ?_
    · have hword : IsIdent (ascii "any") := isIdent_ascii (by simp)
      exact hword.nextWord (by simp [ascii]) hgap
        (blank_space.ends (by simp) (ascii "of them" ++ rest))
    · have htext : Expr.anyOfThem.print 2 = ascii "any" ++ ascii " of them" := rfl
      rw [htext]
      exact parsePrimary_quantifier hgap inner (.inr ⟨rfl, rfl⟩)
  | ofThem n =>
    have hn : Int64.ofNat n.toNatClampNeg = n := by
      refine Int64.ofNat_toNatClampNeg n ?_
      have hpos := Int64.le_iff_toInt_le.mp hscoped.1
      exact Int64.le_iff_toInt_le.mpr (zero_le_one.trans hpos)
    refine .of_primary rfl rfl (fun gap rest hgap _ => ?_) fun gap inner hgap => ?_
    · obtain ⟨c, ds, htext, hc⟩ := exists_digit n.toNatClampNeg
      obtain ⟨hsolid, hletter, -⟩ := isDigit_spec c hc
      rw [Expr.print, htext]
      exact nextWord_nil (by simp [ascii]) hgap ⟨hletter, hsolid⟩ _
    · have hread := parsePrimary_number hgap inner n.toNatClampNeg
      rwa [hn] at hread
  | not e ih => exact (ih hscoped).not_expr
  | and a b iha ihb => exact (iha hscoped.1).and_expr (ihb hscoped.2)
  | or a b iha ihb => exact (iha hscoped.1).or_expr (ihb hscoped.2)

theorem run_parseCondition (hscoped : e.Scoped strings) {gap : Bytes} (hgap : Blank gap)
    (hrest : AfterOr rest) (before : Bytes) :
    ∃ C, C.Same e.condition ∧ parseCondition.run (between before ((gap ++ e.print 0) ++ rest)) =
      .ok (C, between (before ++ (gap ++ e.print 0)) rest) := by
  generalize hsteps : (between before ((gap ++ e.print 0) ++ rest)).rest.length + 1 = n
  have hn : (gap ++ e.print 0).length < n := by
    rw [rest_between, length_append] at hsteps
    omega
  obtain ⟨C, hsame, hC⟩ := ((readBack hscoped).or n gap hgap hn).reads
  refine ⟨C, hsame, ?_⟩
  have hrun := hC before rest hrest
  -- the number of steps is that of the cursor the parser starts at
  dsimp only [parseCondition, StateT.run] at hrun ⊢
  rw [hsteps]
  exact hrun

end ArgusEdr.Yara
