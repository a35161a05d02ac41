import ArgusEdr.Sigma.Grammar

/-!
# The condition parser reads exactly the written expressions

`Expr.tree` is the tree of an expression, with the operands of a chain of `and`s or `or`s in one
group. A text whose tokens spell an expression is compiled to the tree of the expression
(`run_parseExpression`), and a text that is compiled spells an expression with that tree
(`safe_parseExpression`).
-/

namespace ArgusEdr.Sigma

open Go (Library Unicode)
open List hiding foldl_concat
open Detect (Condition)
open Parsing (Halt Safe Took Reads Rounds Stops run_bind_ok safe_bind safe_fail safe_iff_of_run safe_chain_took
  foldl_concat chain)

/-! ## The tokens of a text -/

/-- What a character becomes before the text is cut at white space. -/
def spread (c : Char) : List Char :=
  if c = '(' then [' ', '(', ' '] else if c = ')' then [' ', ')', ' '] else [c]

theorem tokenize_eq (text : String) :
    tokenize text = (Go.words (text.toList.flatMap spread)).map String.ofList := by
  have hspread : ∀ c : Char,
      (if c = '(' then " ( ".toList else [c]).flatMap
        (fun d => if d = ')' then " ) ".toList else [d]) = spread c := by
    intro c
    unfold spread
    by_cases hopen : c = '('
    · rw [if_pos hopen, if_pos hopen]
      decide
    · rw [if_neg hopen, if_neg hopen]
      split <;> simp_all
  rw [tokenize, Go.fields, Go.toList_replaceAll, Go.toList_replaceAll, flatMap_assoc]
  simp only [hspread]

variable {cs : List Char} {ts : List String} {text : String}

theorem flatMap_spread_of_not_isParen (h : ∀ c ∈ cs, ¬IsParen c) : cs.flatMap spread = cs := by
  induction cs with
  | nil => rfl
  | cons c cs ih =>
    obtain ⟨hc, hcs⟩ := forall_mem_cons.mp h
    obtain ⟨hopen, hclose⟩ := not_or.mp hc
    rw [flatMap_cons, ih hcs, spread, if_neg hopen, if_neg hclose, singleton_append]

theorem spread_of_isParen {c : Char} (h : IsParen c) : spread c = [' ', c, ' '] := by
  obtain rfl | rfl := h
  all_goals rfl

theorem Blank.not_isParen {gap : List Char} (h : Blank gap) : ∀ c ∈ gap, ¬IsParen c := by
  rintro c hc (rfl | rfl)
  all_goals exact absurd (h _ hc) (by decide)

/-- Behind a word stands white space, once the parentheses are spread. -/
theorem head_flatMap_spread (h : ∀ c ∈ cs.head?, Go.isSpace c = true ∨ IsParen c) :
    ∀ c ∈ (cs.flatMap spread).head?, Go.isSpace c = true := by
  cases cs with
  | nil => simp
  | cons d cs =>
    by_cases hparen : IsParen d
    · intro c hc
      rw [flatMap_cons, spread_of_isParen hparen] at hc
      cases Option.mem_def.mp hc
      decide
    · intro c hc
      rw [flatMap_cons, ← flatMap_singleton spread d,
        flatMap_spread_of_not_isParen (by simpa using hparen)] at hc
      cases Option.mem_def.mp hc
      exact (h d rfl).resolve_right hparen

theorem words_spread (h : Laid ts cs) : Go.words (cs.flatMap spread) = ts.map String.toList := by
  induction h with
  | nil hgap =>
    rw [flatMap_spread_of_not_isParen hgap.not_isParen]
    have hwords := Go.words_blank_append hgap []
    rwa [append_nil] at hwords
  | @paren gap rest c ts hgap hc _ ih =>
    have hspace : Go.isSpace c = false := by
      obtain rfl | rfl := hc
      all_goals decide
    rw [flatMap_append, flatMap_cons, spread_of_isParen hc,
      flatMap_spread_of_not_isParen hgap.not_isParen, Go.words_blank_append hgap]
    show Go.words (' ' :: ([c] ++ ' ' :: rest.flatMap spread)) = _
    rw [Go.words_cons (by decide), Go.words_append (by simp) (by simpa using hspace)
      (by simp [Go.isSpace]), Go.words_cons (by decide), ih, map_cons, String.toList_ofList]
  | @word gap rest w ts hgap hw hend _ ih =>
    have hne : w.toList ≠ [] := fun h => hw.nonempty (String.toList_eq_nil_iff.mp h)
    rw [flatMap_append, flatMap_append,
      flatMap_spread_of_not_isParen hgap.not_isParen,
      flatMap_spread_of_not_isParen fun c hc => (hw.chars c hc).2, Go.words_blank_append hgap,
      Go.words_append hne (fun c hc => (hw.chars c hc).1) (head_flatMap_spread hend), ih,
      map_cons]

theorem tokenize_of_laid (h : Laid ts text.toList) : tokenize text = ts := by
  rw [tokenize_eq, words_spread h, map_map]
  exact (map_congr_left fun t _ => String.ofList_toList).trans (map_id ts)

theorem Laid.gap {gap : List Char} (hgap : Blank gap) (h : Laid ts cs) : Laid ts (gap ++ cs) := by
  have happend : ∀ gap', Blank gap' → Blank (gap ++ gap') := fun gap' hgap' c hc =>
    (mem_append.mp hc).elim (hgap c) (hgap' c)
  cases h with
  | nil hgap' => exact .nil (happend _ hgap')
  | paren hgap' hc hts =>
    rw [← append_assoc]
    exact .paren (happend _ hgap') hc hts
  | word hgap' hw hend hts =>
    rw [← append_assoc]
    exact .word (happend _ hgap') hw hend hts

/-- A text is a word, up to the first character that cannot be in one. -/
theorem exists_cut (cs : List Char) :
    ∃ w rest, cs = w ++ rest ∧ (∀ c ∈ w, Go.isSpace c = false ∧ ¬IsParen c) ∧
      ∀ c ∈ rest.head?, Go.isSpace c = true ∨ IsParen c := by
  induction cs with
  | nil => exact ⟨[], [], rfl, by simp, by simp⟩
  | cons c cs ih =>
    by_cases hc : Go.isSpace c = true ∨ IsParen c
    · exact ⟨[], c :: cs, rfl, by simp, by simpa using hc⟩
    · obtain ⟨hspace, hparen⟩ := not_or.mp hc
      obtain ⟨w, rest, rfl, hw, hrest⟩ := ih
      have hcw : ∀ d ∈ c :: w, Go.isSpace d = false ∧ ¬IsParen d :=
        forall_mem_cons.mpr ⟨⟨Bool.eq_false_iff.mpr hspace, hparen⟩, hw⟩
      exact ⟨c :: w, rest, rfl, hcw, hrest⟩

/-- Every text has tokens. The induction is on the length of the text: a word is cut off as a
whole. -/
theorem exists_laid (cs : List Char) : ∃ ts, Laid ts cs := by
  induction hn : cs.length using Nat.strong_induction_on generalizing cs with
  | _ n ih =>
    subst hn
    have hblank : Blank [] := by simp [Blank]
    obtain ⟨w, rest, rfl, hw, hrest⟩ := exists_cut cs
    cases w with
    | cons c w =>
      have hlt : rest.length < (c :: w ++ rest).length := by simp
      obtain ⟨ts, hts⟩ := ih _ hlt rest rfl
      have hword : IsWord (String.ofList (c :: w)) := ⟨by simp, by simpa using hw⟩
      have hlaid := Laid.word hblank hword hrest hts
      rw [String.toList_ofList] at hlaid
      exact ⟨_, hlaid⟩
    | nil =>
      cases rest with
      | nil => exact ⟨[], .nil hblank⟩
      | cons c rest =>
        obtain ⟨ts, hts⟩ := ih _ (Nat.lt_succ_self _) rest rfl
        obtain hspace | hparen := hrest c rfl
        · have hgap : Blank [c] := by simpa [Blank] using hspace
          have hlaid : Laid ts ([c] ++ rest) := hts.gap hgap
          exact ⟨ts, hlaid⟩
        · exact ⟨_, .paren hblank hparen hts⟩

theorem tokenize_eq_iff : tokenize text = ts ↔ Laid ts text.toList := by
  constructor
  · rintro rfl
    obtain ⟨ts, hts⟩ := exists_laid text.toList
    rwa [tokenize_of_laid hts]
  · exact tokenize_of_laid

/-! ## Reading tokens -/

section
variable {u : Unicode}

theorem run_peek (ts : List String) : peek.run ts = .ok (ts.headD "", ts) := rfl

variable {t keyword token : String} {pattern : Pattern}

theorem run_advance_cons (h : t ≠ "") (ts : List String) : advance.run (t :: ts) = .ok (t, ts) := by
  unfold advance
  rw [run_bind_ok (run_peek _), headD_cons, if_pos h]
  rfl

theorem run_consumeKeyword_cons (h : IsKeyword u keyword t) (ts : List String) :
    (consumeKeyword u keyword).run (t :: ts) = .ok (true, ts) := by
  unfold consumeKeyword
  rw [run_bind_ok (run_peek _), headD_cons, if_pos h]
  rfl

theorem run_consumeKeyword_of_not (h : ¬IsKeyword u keyword (ts.headD "")) :
    (consumeKeyword u keyword).run ts = .ok (false, ts) := by
  unfold consumeKeyword
  rw [run_bind_ok (run_peek _), if_neg h]
  rfl

theorem run_consumeToken_cons (t : String) (ts : List String) :
    (consumeToken t).run (t :: ts) = .ok (true, ts) := by
  unfold consumeToken
  rw [run_bind_ok (run_peek _), headD_cons, if_pos rfl]
  rfl

theorem run_consumeToken_of_not (h : ts.headD "" ≠ t) :
    (consumeToken t).run ts = .ok (false, ts) := by
  unfold consumeToken
  rw [run_bind_ok (run_peek _), if_neg h]
  rfl

/-- What stands behind an expression: nothing, or a parenthesis. -/
def Closed (ts : List String) : Prop := ts = [] ∨ ∃ rest, ts = ")" :: rest

theorem Closed.run_consumeKeyword (h : Closed ts) (hkeyword : 1 < keyword.toList.length) :
    (consumeKeyword u keyword).run ts = .ok (false, ts) := by
  refine run_consumeKeyword_of_not (not_isKeyword_of_length ?_)
  obtain rfl | ⟨rest, rfl⟩ := h
  · show 0 ≠ keyword.toList.length
    omega
  · have hlength : ")".toList.length = 1 := by decide
    rw [headD_cons, hlength]
    omega

/-! ## Patterns -/

theorem cutSuffix_append (start ending : String) :
    Go.cutSuffix (start ++ ending) ending = some start := by
  have hends : Go.hasSuffix (start ++ ending) ending = true := by
    rw [Go.hasSuffix, isSuffixOf_iff_suffix, String.toList_append]
    exact suffix_append _ _
  rw [Go.cutSuffix, if_pos hends, String.toList_append, length_append, Nat.add_sub_cancel,
    take_left, String.ofList_toList]

theorem patternMatches_eq (h : pattern.Spelled u token) (name : String) :
    patternMatches u name token = pattern.matches name := by
  unfold patternMatches
  cases pattern with
  | them =>
    have hthem : IsKeyword u "them" token := h
    rw [if_pos hthem]
    rfl
  | startingWith =>
    obtain ⟨hthem, rfl⟩ := h
    rw [if_neg hthem, cutSuffix_append]
    rfl
  | named =>
    obtain ⟨hthem, -, hends, rfl⟩ := h
    have hcut : Go.cutSuffix token "*" = none := by rw [Go.cutSuffix, hends]; rfl
    rw [if_neg hthem, hcut]
    rfl

theorem Pattern.Spelled.nonempty (h : pattern.Spelled u token) : token ≠ "" := by
  rintro rfl
  cases pattern with
  | them => exact not_isKeyword_of_length (by decide) h
  | startingWith =>
    have hchars := congrArg String.toList h.2
    simp at hchars
  | named => exact h.2.1 rfl

theorem exists_pattern (h : token ≠ "") : ∃ pattern : Pattern, pattern.Spelled u token := by
  by_cases hthem : IsKeyword u "them" token
  · exact ⟨.them, hthem⟩
  · cases hends : Go.hasSuffix token "*" with
    | false => exact ⟨.named token, hthem, h, hends, rfl⟩
    | true =>
      obtain ⟨start, hstart⟩ := isSuffixOf_iff_suffix.mp hends
      refine ⟨.startingWith (String.ofList start), hthem, String.toList_inj.mp ?_⟩
      rw [String.toList_append, String.toList_ofList, hstart]

end

/-! ## The tree of an expression -/

section
variable [Library]

/-- The tree of an expression, with the operands it has as a chain of `and`s and as a chain of
`or`s. -/
structure Operands where
  tree : Condition
  ands : List Condition
  ors : List Condition

def Operands.single (tree : Condition) : Operands := ⟨tree, [tree], [tree]⟩

def Operands.and (l r : Operands) : Operands :=
  let ands := l.ands ++ [r.tree]
  ⟨allOf ands, ands, [allOf ands]⟩

def Operands.or (l r : Operands) : Operands :=
  let ors := l.ors ++ [r.tree]
  ⟨anyOf ors, [anyOf ors], ors⟩

section
variable (selection : String → Condition) (names : List String)

def matchedBy (pattern : Pattern) : List Condition := (names.filter pattern.matches).map selection

def Expr.operands : Expr → Operands
  | .name n => .single (selection n)
  | .quantified all pattern =>
    .single (if all then allOf (matchedBy selection names pattern)
      else anyOf (matchedBy selection names pattern))
  | .not x => .single (.notOf x.operands.tree)
  | .paren x => .single x.operands.tree
  | .and l r => l.operands.and r.operands
  | .or l r => l.operands.or r.operands

def Expr.tree (x : Expr) : Condition := (x.operands selection names).tree

end

variable {u : Unicode} {selection : String → Condition} {names : List String}

theorem Expr.tree_eq_allOf (x : Expr) :
    x.tree selection names = allOf (x.operands selection names).ands := by
  cases x <;> rfl

theorem Expr.tree_eq_anyOf (x : Expr) :
    x.tree selection names = anyOf (x.operands selection names).ors := by
  cases x <;> rfl

variable {x : Expr} {pattern : Pattern} {t keyword : String} {p : P Condition}

theorem Expr.Written.operands_two (h : x.Written u names 2 ts) :
    x.operands selection names = .single (x.tree selection names) := by
  cases h with
  | name | quantified | not | paren => rfl
  | and hk _ _ _ => exact absurd hk (by decide)

theorem Expr.Written.ors_one (h : x.Written u names 1 ts) :
    (x.operands selection names).ors = [x.tree selection names] := by
  cases h with
  | name | quantified | not | paren | and => rfl

/-! ## A written expression is read -/

variable {selections : List (String × Condition)} {fuel : ℕ}

/-- The names have the selections `selection`. -/
def Resolves (selections : List (String × Condition)) (names : List String)
    (selection : String → Condition) : Prop :=
  ∀ n ∈ names, selections.lookup n = some (selection n)

theorem selectionsMatching_eq (hsel : Resolves selections names selection) {token : String}
    (h : pattern.Spelled u token) :
    selectionsMatching u selections names token = matchedBy selection names pattern := by
  have hfilter : (fun name => patternMatches u name token) = pattern.matches :=
    funext fun name => patternMatches_eq h name
  rw [selectionsMatching, hfilter, matchedBy, ← filterMap_eq_map]
  refine filterMap_congr fun n hn => ?_
  exact hsel n (mem_of_mem_filter hn)

theorem matchedBy_ne_nil :
    matchedBy selection names pattern ≠ [] ↔ ∃ n ∈ names, pattern.matches n = true := by
  rw [matchedBy, ne_eq, map_eq_nil_iff, filter_eq_nil_iff]
  simp

abbrev AndEnds (u : Unicode) : List String → Prop :=
  Stops (fun _ => True) (consumeKeyword u "and")

abbrev ExprEnds (u : Unicode) : List String → Prop := Stops (AndEnds u) (consumeKeyword u "or")

omit [Library] in
theorem Closed.exprEnds (h : Closed ts) : ExprEnds u ts :=
  ⟨⟨trivial, h.run_consumeKeyword (by decide)⟩, h.run_consumeKeyword (by decide)⟩

/-- How the tokens of an expression are read at each level: by a chain of operands of the next
level, or by `parseNot`. -/
def ReadsAt (parseNot : P Condition) (u : Unicode) : ℕ → Operands → List String → Prop
  | 0, x, ts => ∃ first rest us vs, ts = us ++ vs ∧ x.ors = first :: rest ∧
      Reads (AndEnds u) (parseAnd u parseNot) us first ∧
      Rounds (AndEnds u) (consumeKeyword u "or") (parseAnd u parseNot) vs rest
  | 1, x, ts => ∃ first rest us vs, ts = us ++ vs ∧ x.ands = first :: rest ∧
      Reads (fun _ => True) parseNot us first ∧
      Rounds (fun _ => True) (consumeKeyword u "and") parseNot vs rest
  | _, x, ts => Reads (fun _ => True) parseNot ts x.tree

section
variable {p : P Condition} {us : List String} {x l r : Operands}

/-- The trees of a chain are collected in the order of the operands. -/
theorem reads_collectTerms {follow : List String → Prop} {vs : List String} {first : Condition}
    {rest : List Condition} (hfirst : Reads follow p us first)
    (hrest : Rounds follow (consumeKeyword u keyword) p vs rest) :
    Reads (Stops follow (consumeKeyword u keyword)) (collectTerms u keyword p) (us ++ vs)
      (first :: rest) := by
  have hchain := hfirst.chain hrest (fun term => [term]) fun terms term => terms ++ [term]
  rwa [foldl_concat, singleton_append] at hchain

theorem ReadsAt.reads_and (htree : x.tree = allOf x.ands) (h : ReadsAt p u 1 x ts) :
    Reads (AndEnds u) (parseAnd u p) ts x.tree := by
  obtain ⟨first, rest, us, vs, rfl, hands, hfirst, hrest⟩ := h
  intro after hafter
  unfold parseAnd
  rw [run_bind_ok (reads_collectTerms hfirst hrest after hafter), ← hands, ← htree]
  rfl

theorem ReadsAt.reads_or (htree : x.tree = anyOf x.ors) (h : ReadsAt p u 0 x ts) :
    Reads (ExprEnds u) (parseOr u p) ts x.tree := by
  obtain ⟨first, rest, us, vs, rfl, hors, hfirst, hrest⟩ := h
  intro after hafter
  unfold parseOr
  rw [run_bind_ok (reads_collectTerms hfirst hrest after hafter), ← hors, ← htree]
  rfl

theorem ReadsAt.of_one (htree : x.tree = allOf x.ands) (hors : x.ors = [x.tree])
    (h : ReadsAt p u 1 x ts) : ReadsAt p u 0 x ts :=
  ⟨x.tree, [], ts, [], (append_nil ts).symm, hors, h.reads_and htree, .nil⟩

theorem ReadsAt.of_two {tree : Condition} (h : Reads (fun _ => True) p ts tree) {k : ℕ}
    (hk : k ≤ 2) : ReadsAt p u k (.single tree) ts := by
  have hone : ReadsAt p u 1 (.single tree) ts :=
    ⟨tree, [], ts, [], (append_nil ts).symm, rfl, h, .nil⟩
  interval_cases k
  · exact hone.of_one rfl rfl
  · exact hone
  · exact h

theorem ReadsAt.and (hl : ReadsAt p u 1 l ts) (hkeyword : IsKeyword u "and" keyword)
    (hr : ReadsAt p u 2 r us) : ReadsAt p u 1 (l.and r) (ts ++ keyword :: us) := by
  obtain ⟨first, rest, vs, ws, rfl, hands, hfirst, hrest⟩ := hl
  have hsep : Reads (fun _ => True) (consumeKeyword u "and") [keyword] true := fun rest _ =>
    run_consumeKeyword_cons hkeyword rest
  have hrounds := hrest.concat (cons_ne_nil _ _) hsep (fun _ => trivial) hr
  refine ⟨first, rest ++ [r.tree], vs, ws ++ ([keyword] ++ us), ?_, ?_, hfirst, hrounds⟩
  · simp
  · simp [Operands.and, hands]

theorem ReadsAt.or (hl : ReadsAt p u 0 l ts) (hkeyword : IsKeyword u "or" keyword)
    (hr : Reads (AndEnds u) (parseAnd u p) us r.tree) :
    ReadsAt p u 0 (l.or r) (ts ++ keyword :: us) := by
  obtain ⟨first, rest, vs, ws, rfl, hors, hfirst, hrest⟩ := hl
  have hsep : Reads (fun _ => True) (consumeKeyword u "or") [keyword] true := fun rest _ =>
    run_consumeKeyword_cons hkeyword rest
  have hends : ∀ rest, AndEnds u ([keyword] ++ rest) := by
    refine fun rest => ⟨trivial, run_consumeKeyword_of_not (not_isKeyword_of_length ?_)⟩
    rw [singleton_append, headD_cons, length_of_isKeyword hkeyword]
    decide
  have hrounds := hrest.concat (cons_ne_nil _ _) hsep hends hr
  refine ⟨first, rest ++ [r.tree], vs, ws ++ ([keyword] ++ us), ?_, ?_, hfirst, hrounds⟩
  · simp
  · simp [Operands.or, hors]

end

theorem run_parseNot_of_not (h : ¬IsKeyword u "not" t) (ts : List String) :
    (parseNot u selections names (fuel + 1)).run (t :: ts) =
      (parseAtom u selections names (parseNot u selections names fuel)).run (t :: ts) := by
  have hhead : ¬IsKeyword u "not" ((t :: ts).headD "") := h
  show StateT.run (consumeKeyword u "not" >>= _) _ = _
  rw [run_bind_ok (run_consumeKeyword_of_not hhead)]
  rfl

theorem reads_not (hkeyword : IsKeyword u "not" keyword) {tree : Condition}
    (h : Reads (fun _ => True) (parseNot u selections names fuel) ts tree) :
    Reads (fun _ => True) (parseNot u selections names (fuel + 1)) (keyword :: ts)
      (.notOf tree) := by
  intro rest _
  show StateT.run (consumeKeyword u "not" >>= _) (keyword :: (ts ++ rest)) = _
  rw [run_bind_ok (run_consumeKeyword_cons hkeyword _)]
  show StateT.run (parseNot u selections names fuel >>= _) _ = _
  rw [run_bind_ok (h rest trivial)]
  rfl

theorem reads_name {n : String} (hname : IsName u n) {tree : Condition}
    (hlookup : selections.lookup n = some tree) :
    Reads (fun _ => True) (parseNot u selections names (fuel + 1)) [n] tree := by
  intro rest _
  have hquantifier : ¬isQuantifier u n = true := by
    rw [hname.notQuantifier]
    decide
  rw [singleton_append, run_parseNot_of_not hname.notNot]
  unfold parseAtom
  rw [run_bind_ok (run_peek _), headD_cons, if_neg hname.nonempty, if_neg hname.notParen,
    if_neg hquantifier, run_bind_ok (run_advance_cons hname.nonempty _), hlookup]
  rfl

theorem reads_paren {tree : Condition}
    (h : Reads (ExprEnds u) (parseOr u (parseNot u selections names fuel)) ts tree) :
    Reads (fun _ => True) (parseNot u selections names (fuel + 1)) ("(" :: (ts ++ [")"])) tree := by
  intro rest _
  have hnot : ¬IsKeyword u "not" "(" := not_isKeyword_of_length (by decide)
  have hclosed : Closed (")" :: rest) := .inr ⟨rest, rfl⟩
  rw [cons_append, append_assoc, singleton_append, run_parseNot_of_not hnot]
  unfold parseAtom parseGroup
  rw [run_bind_ok (run_peek _), headD_cons, if_neg (by decide), if_pos rfl,
    run_bind_ok (run_advance_cons (by decide) _), run_bind_ok (h _ hclosed.exprEnds),
    run_bind_ok (run_consumeToken_cons _ _)]
  rfl

theorem reads_quantified (hsel : Resolves selections names selection) {all : Bool} {q of : String}
    (hq : IsQuantifier u all q) (hof : IsKeyword u "of" of) (ht : pattern.Spelled u t)
    (hmatches : ∃ n ∈ names, pattern.matches n = true) :
    Reads (fun _ => True) (parseNot u selections names (fuel + 1)) [q, of, t]
      (if all then allOf (matchedBy selection names pattern)
        else anyOf (matchedBy selection names pattern)) := by
  intro rest _
  have hmatched : (matchedBy selection names pattern).isEmpty = false :=
    isEmpty_eq_false_iff.mpr (matchedBy_ne_nil.mpr hmatches)
  have hlower := hq.lower
  show StateT.run _ (q :: of :: t :: rest) = _
  rw [run_parseNot_of_not hq.notNot]
  unfold parseAtom parseQuantifier
  rw [run_bind_ok (run_peek _), headD_cons, if_neg hq.nonempty, if_neg hq.notParen,
    if_pos hq.quantifier, run_bind_ok (run_advance_cons hq.nonempty _),
    run_bind_ok (run_consumeKeyword_cons hof _), if_pos rfl,
    run_bind_ok (run_advance_cons ht.nonempty _), if_neg ht.nonempty,
    selectionsMatching_eq hsel ht]
  dsimp only
  rw [hmatched, if_neg (by decide)]
  cases all with
  | true =>
    rw [if_pos rfl] at hlower ⊢
    rw [if_pos hlower]
    rfl
  | false =>
    rw [if_neg (by decide)] at hlower
    have hall : Go.toLower u q ≠ "all" := by
      obtain h | h := hlower
      all_goals rw [h]; decide
    rw [if_neg hall, if_pos hlower]
    rfl

theorem readsAt_of_written (hsel : Resolves selections names selection) {k : ℕ}
    (h : x.Written u names k ts) (hfuel : ts.length ≤ fuel) :
    ReadsAt (parseNot u selections names fuel) u k (x.operands selection names) ts := by
  induction h generalizing fuel with
  | name hk hname hn =>
    obtain ⟨f, rfl⟩ : ∃ f, fuel = f + 1 := ⟨fuel - 1, by simp at hfuel; omega⟩
    exact .of_two (reads_name hname (hsel _ hn)) hk
  | quantified hk hq hof hp hmatches =>
    obtain ⟨f, rfl⟩ : ∃ f, fuel = f + 1 := ⟨fuel - 1, by simp at hfuel; omega⟩
    exact .of_two (reads_quantified hsel hq hof hp hmatches) hk
  | @not k keyword x ts hk hkeyword _ ih =>
    rw [length_cons] at hfuel
    obtain ⟨f, rfl⟩ : ∃ f, fuel = f + 1 := ⟨fuel - 1, by omega⟩
    have hx : ReadsAt (parseNot u selections names f) u 2 _ ts := ih (by omega)
    exact .of_two (reads_not hkeyword hx) hk
  | @paren k x ts hk _ ih =>
    rw [length_cons, length_append, length_singleton] at hfuel
    obtain ⟨f, rfl⟩ : ∃ f, fuel = f + 1 := ⟨fuel - 1, by omega⟩
    have hx : ReadsAt (parseNot u selections names f) u 0 _ ts := ih (by omega)
    exact .of_two (reads_paren (hx.reads_or x.tree_eq_anyOf)) hk
  | @and k keyword l r ts us hk _ hkeyword _ ihl ihr =>
    rw [length_append, length_cons] at hfuel
    have hone : ReadsAt (parseNot u selections names fuel) u 1 _ (ts ++ keyword :: us) :=
      (ihl (by omega)).and hkeyword (ihr (by omega))
    interval_cases k
    · exact hone.of_one rfl rfl
    · exact hone
  | @or keyword l r ts us _ hkeyword _ ihl ihr =>
    rw [length_append, length_cons] at hfuel
    have hr : ReadsAt (parseNot u selections names fuel) u 1 _ us := ihr (by omega)
    exact (ihl (by omega)).or hkeyword (hr.reads_and r.tree_eq_allOf)

theorem run_parseExpression (hsel : Resolves selections names selection)
    (h : x.Written u names 0 ts) (hfuel : ts.length ≤ fuel) :
    (parseExpression u selections names fuel).run ts = .ok (x.tree selection names, []) := by
  have hclosed : Closed [] := .inl rfl
  have hread := (readsAt_of_written hsel h hfuel).reads_or x.tree_eq_anyOf
  have hrun := hread [] hclosed.exprEnds
  rwa [append_nil] at hrun

/-! ## What is read was written -/

omit [Library] in
theorem Expr.Written.mono {j k : ℕ} (h : x.Written u names k ts) (hjk : j ≤ k) :
    x.Written u names j ts := by
  cases h with
  | name hk hname hn => exact .name (hjk.trans hk) hname hn
  | quantified hk hq hof hp hmatches => exact .quantified (hjk.trans hk) hq hof hp hmatches
  | not hk hkeyword hx => exact .not (hjk.trans hk) hkeyword hx
  | paren hk hx => exact .paren (hjk.trans hk) hx
  | and hk hl hkeyword hr => exact .and (hjk.trans hk) hl hkeyword hr
  | or hl hkeyword hr =>
    obtain rfl : j = 0 := Nat.le_zero.mp hjk
    exact .or hl hkeyword hr

variable (u selection names) in
def Spells (k : ℕ) (ts : List String) (tree : Condition) : Prop :=
  ∃ x : Expr, x.Written u names k ts ∧ x.tree selection names = tree

omit [Library] in
theorem safe_consumeKeyword (hkeyword : keyword.toList.length ≠ 0) (ts : List String) :
    Safe (consumeKeyword u keyword) (fun again rest =>
      if again then ∃ t, IsKeyword u keyword t ∧ ts = t :: rest
      else rest = ts ∧ ¬IsKeyword u keyword (ts.headD "")) ts := by
  by_cases h : IsKeyword u keyword (ts.headD "")
  · cases ts with
    | nil => exact absurd (length_of_isKeyword h).symm hkeyword
    | cons t rest =>
      rw [headD_cons] at h
      rw [safe_iff_of_run (run_consumeKeyword_cons h rest)]
      exact ⟨t, h, rfl⟩
  · rw [safe_iff_of_run (run_consumeKeyword_of_not h)]
    exact ⟨rfl, h⟩

section
variable {p : P Condition} {inv : List String → Prop}
  (hinv : ∀ us rest, inv (us ++ rest) → inv rest)
include hinv

theorem safe_collectTerms (hkeyword : keyword.toList.length ≠ 0)
    {piece : List String → Condition → Prop} {pieces : List String → List Condition → Prop}
    (hp : ∀ ts, inv ts → Safe p (Took piece ts) ts)
    (hstart : ∀ us tree, piece us tree → pieces us [tree])
    (hadd : ∀ us trees t vs tree, pieces us trees → IsKeyword u keyword t → piece vs tree →
      pieces (us ++ t :: vs) (trees ++ [tree])) (h : inv ts) :
    Safe (collectTerms u keyword p) (Took pieces ts) ts := by
  have hseparator : ∀ ts, inv ts → Safe (consumeKeyword u keyword) (fun again rest =>
      if again then Took (fun s _ => ∃ t, IsKeyword u keyword t ∧ s = [t]) ts again rest
      else rest = ts) ts := by
    intro ts _
    refine (safe_consumeKeyword hkeyword ts).mono fun again rest hagain => ?_
    cases again with
    | false => exact hagain.1
    | true =>
      obtain ⟨t, ht, rfl⟩ := hagain
      exact ⟨[t], cons_ne_nil _ _, ⟨t, ht, rfl⟩, rfl⟩
  refine safe_chain_took hinv hseparator hp hstart ?_ h
  rintro us trees s vs tree hus ⟨t, ht, rfl⟩ hvs
  exact hadd us trees t vs tree hus ht hvs

variable (hp : ∀ ts, inv ts → Safe p (Took (Spells u selection names 2) ts) ts)
include hp

theorem safe_parseAnd (h : inv ts) :
    Safe (parseAnd u p) (Took (Spells u selection names 1) ts) ts := by
  have hterms : Safe (collectTerms u "and" p) (Took (fun us trees =>
      ∃ x : Expr, x.Written u names 1 us ∧ (x.operands selection names).ands = trees) ts) ts := by
    refine safe_collectTerms hinv (by decide) hp ?_ ?_ h
    · rintro us tree ⟨x, hx, rfl⟩
      exact ⟨x, hx.mono (by decide), by rw [hx.operands_two]; rfl⟩
    · rintro us trees t vs tree ⟨x, hx, rfl⟩ ht ⟨y, hy, rfl⟩
      exact ⟨.and x y, .and le_rfl hx ht hy, rfl⟩
  unfold parseAnd
  rw [safe_bind]
  refine hterms.mono fun trees rest htrees => ?_
  obtain ⟨us, hne, ⟨x, hx, rfl⟩, rfl⟩ := htrees
  exact ⟨us, hne, ⟨x, hx, x.tree_eq_allOf⟩, rfl⟩

theorem safe_parseOr (h : inv ts) :
    Safe (parseOr u p) (Took (Spells u selection names 0) ts) ts := by
  have hterms : Safe (collectTerms u "or" (parseAnd u p)) (Took (fun us trees =>
      ∃ x : Expr, x.Written u names 0 us ∧ (x.operands selection names).ors = trees) ts) ts := by
    refine safe_collectTerms hinv (by decide) (fun ts => safe_parseAnd hinv hp) ?_ ?_ h
    · rintro us tree ⟨x, hx, rfl⟩
      exact ⟨x, hx.mono (by decide), hx.ors_one⟩
    · rintro us trees t vs tree ⟨x, hx, rfl⟩ ht ⟨y, hy, rfl⟩
      exact ⟨.or x y, .or hx ht hy, rfl⟩
  unfold parseOr
  rw [safe_bind]
  refine hterms.mono fun trees rest htrees => ?_
  obtain ⟨us, hne, ⟨x, hx, rfl⟩, rfl⟩ := htrees
  exact ⟨us, hne, ⟨x, hx, x.tree_eq_anyOf⟩, rfl⟩

end

omit [Library] in
theorem run_advance_of_end (h : ts.headD "" = "") : advance.run ts = .ok ("", ts) := by
  unfold advance
  rw [run_bind_ok (run_peek _), h]
  rfl

theorem safe_parseQuantifier (hsel : Resolves selections names selection)
    (hnot : ¬IsKeyword u "not" t) (hq : isQuantifier u t = true) (ts : List String) :
    Safe (parseQuantifier u selections names) (Took (Spells u selection names 2) (t :: ts))
      (t :: ts) := by
  have hne : t ≠ "" := by
    rintro rfl
    rw [isQuantifier_empty] at hq
    exact absurd hq (by decide)
  unfold parseQuantifier
  rw [safe_bind, safe_iff_of_run (run_advance_cons hne ts), safe_bind]
  refine (safe_consumeKeyword (by decide) ts).mono fun again rest hagain => ?_
  cases again with
  | false => exact safe_fail
  | true =>
    obtain ⟨of, hof, rfl⟩ := hagain
    rw [if_pos rfl, safe_bind]
    by_cases hend : rest.headD "" = ""
    · rw [safe_iff_of_run (run_advance_of_end hend)]
      exact safe_fail
    · cases rest with
      | nil => exact absurd rfl hend
      | cons token rest =>
        rw [headD_cons] at hend
        obtain ⟨pattern, hpattern⟩ := exists_pattern (u := u) hend
        rw [safe_iff_of_run (run_advance_cons hend rest), if_neg hend,
          selectionsMatching_eq hsel hpattern]
        dsimp only
        split
        · exact safe_fail
        · next hmatched =>
          have hmatches : ∃ n ∈ names, pattern.matches n = true :=
            matchedBy_ne_nil.mp fun hnil => hmatched (isEmpty_iff.mpr hnil)
          have htook : ∀ all : Bool, IsQuantifier u all t →
              Took (Spells u selection names 2) (t :: of :: token :: rest)
                ((Expr.quantified all pattern).tree selection names) rest := fun all hall =>
            ⟨[t, of, token], cons_ne_nil _ _,
              ⟨_, .quantified le_rfl hall hof hpattern hmatches, rfl⟩, rfl⟩
          split
          · next hall => exact htook true ⟨hnot, hq, hall⟩
          · split
            · next hany => exact htook false ⟨hnot, hq, hany⟩
            · exact safe_fail

theorem safe_parseGroup (hor : Safe (parseOr u p) (Took (Spells u selection names 0) ts) ts) :
    Safe (parseGroup u p) (Took (Spells u selection names 2) ("(" :: ts)) ("(" :: ts) := by
  unfold parseGroup
  rw [safe_bind, safe_iff_of_run (run_advance_cons (by decide) ts), safe_bind]
  refine hor.mono fun tree rest htree => ?_
  obtain ⟨us, -, ⟨x, hx, rfl⟩, rfl⟩ := htree
  rw [safe_bind]
  by_cases hclose : rest.headD "" = ")"
  · cases rest with
    | nil => exact absurd hclose (by decide)
    | cons t rest =>
      obtain rfl : t = ")" := hclose
      rw [safe_iff_of_run (run_consumeToken_cons ")" rest)]
      refine ⟨"(" :: (us ++ [")"]), cons_ne_nil _ _, ⟨.paren x, .paren le_rfl hx, rfl⟩, ?_⟩
      simp
  · rw [safe_iff_of_run (run_consumeToken_of_not hclose)]
    exact safe_fail

theorem safe_parseAtom (hsel : Resolves selections names selection)
    (hnames : ∀ n c, selections.lookup n = some c → n ∈ names)
    (hnot : ¬IsKeyword u "not" (ts.headD ""))
    (hor : ∀ us, us.length < ts.length →
      Safe (parseOr u p) (Took (Spells u selection names 0) us) us) :
    Safe (parseAtom u selections names p) (Took (Spells u selection names 2) ts) ts := by
  unfold parseAtom
  rw [safe_bind, safe_iff_of_run (run_peek ts)]
  split
  · exact safe_fail
  · next hne =>
    cases ts with
    | nil => exact absurd rfl hne
    | cons t rest =>
      rw [headD_cons] at *
      split
      · next hparen =>
        subst hparen
        exact safe_parseGroup (hor rest (Nat.lt_succ_self _))
      · next hparen =>
        split
        · next hq => exact safe_parseQuantifier hsel hnot hq rest
        · next hq =>
          rw [safe_bind, safe_iff_of_run (run_advance_cons hne rest)]
          cases hlookup : selections.lookup t with
          | none => exact safe_fail
          | some tree =>
            have hname : IsName u t := ⟨hne, hparen, hnot, Bool.eq_false_iff.mpr hq⟩
            have hmem := hnames t tree hlookup
            have htree : selection t = tree := by
              rw [hsel t hmem, Option.some.injEq] at hlookup
              exact hlookup
            exact ⟨[t], cons_ne_nil _ _, ⟨.name t, .name le_rfl hname hmem, htree⟩, rfl⟩

omit [Library] in
theorem length_lt_of_append (us rest : List String) (h : (us ++ rest).length < fuel) :
    rest.length < fuel := by
  rw [length_append] at h
  omega

/-- The induction is on the fuel, which bounds the tokens that are left. -/
theorem safe_parseNot (hsel : Resolves selections names selection)
    (hnames : ∀ n c, selections.lookup n = some c → n ∈ names) (hfuel : ts.length < fuel) :
    Safe (parseNot u selections names fuel) (Took (Spells u selection names 2) ts) ts := by
  induction fuel generalizing ts with
  | zero => exact absurd hfuel (Nat.not_lt_zero _)
  | succ fuel ih =>
    rw [parseNot, safe_bind]
    refine (safe_consumeKeyword (by decide) ts).mono fun again rest hagain => ?_
    cases again with
    | true =>
      obtain ⟨t, ht, rfl⟩ := hagain
      show Safe (parseNot u selections names fuel >>= _) _ rest
      rw [safe_bind]
      refine (ih (Nat.lt_of_succ_lt_succ hfuel)).mono fun tree rest' htree => ?_
      obtain ⟨us, -, ⟨x, hx, rfl⟩, rfl⟩ := htree
      exact ⟨t :: us, cons_ne_nil _ _, ⟨.not x, .not le_rfl ht hx, rfl⟩, rfl⟩
    | false =>
      obtain ⟨rfl, hnot⟩ := hagain
      refine safe_parseAtom hsel hnames hnot fun us hus => ?_
      exact safe_parseOr length_lt_of_append (fun ts => ih) (by omega)

theorem safe_parseExpression (hsel : Resolves selections names selection)
    (hnames : ∀ n c, selections.lookup n = some c → n ∈ names) (hfuel : ts.length < fuel) :
    Safe (parseExpression u selections names fuel) (Took (Spells u selection names 0) ts) ts :=
  safe_parseOr length_lt_of_append (fun _ => safe_parseNot hsel hnames) hfuel

/-! ## Conditions -/

theorem parseCondition_eq_ok_iff_run {tree : Condition} :
    parseCondition u selections names text = .ok tree ↔
      (parseExpression u selections names ((tokenize text).length + 1)).run (tokenize text) =
        .ok (tree, []) := by
  unfold parseCondition
  dsimp only
  generalize (parseExpression u selections names _).run (tokenize text) = result
  rcases result with halt | ⟨tree', _ | ⟨t, rest⟩⟩
  all_goals simp

theorem parseCondition_of_writtenAs (hsel : Resolves selections names selection)
    (h : x.WrittenAs u names text) :
    parseCondition u selections names text = .ok (x.tree selection names) := by
  obtain ⟨tokens, hx, hlaid⟩ := h
  rw [parseCondition_eq_ok_iff_run, tokenize_eq_iff.mpr hlaid]
  exact run_parseExpression hsel hx (Nat.le_succ _)

/-- `parseCondition` compiles exactly the texts that spell an expression, each to the tree of the
expression. -/
theorem parseCondition_eq_ok_iff (hsel : Resolves selections names selection)
    (hnames : ∀ n c, selections.lookup n = some c → n ∈ names) {tree : Condition} :
    parseCondition u selections names text = .ok tree ↔
      ∃ x : Expr, x.WrittenAs u names text ∧ x.tree selection names = tree := by
  constructor
  · intro h
    have hlaid : Laid (tokenize text) text.toList := tokenize_eq_iff.mp rfl
    rw [parseCondition_eq_ok_iff_run] at h
    generalize tokenize text = ts at h hlaid
    have hsafe := safe_parseExpression (u := u) hsel hnames (Nat.lt_succ_self ts.length)
    obtain ⟨us, -, ⟨x, hx, htree⟩, hts⟩ := (safe_iff_of_run h).mp hsafe
    rw [append_nil] at hts
    exact ⟨x, ⟨ts, hts ▸ hx, hlaid⟩, htree⟩
  · rintro ⟨x, hx, rfl⟩
    exact parseCondition_of_writtenAs hsel hx

end

end ArgusEdr.Sigma
