import ArgusEdr.Lib.Bounds
import ArgusEdr.Yara.CompileTheorems

/-!
# Where the compiler reads

Each parser gets from a cursor inside the text to a cursor inside the text, and each round of a loop
reads something, so that compiling always ends (`safe_compileRounds`). The one way to get past the
end of the text is a comment that is not closed. No identifier can be cut out there, and cutting one
out is what nearly every parser does first.
-/

namespace ArgusEdr.Yara

open List

open Go (Bytes ascii)
open Reading Reading.Cursor
open Parsing (Halt)

/-! ## Comments -/

/-- Every comment that could start somewhere in the text is closed. -/
def Closed (text : Bytes) : Prop :=
  ∀ inner, ascii "/*" ++ inner <:+ text → ascii "*/" <:+: inner

theorem closed_iff (text : Bytes) :
    Closed text ↔ ∀ ahead ∈ text.tails, ascii "/*" <+: ahead → ascii "*/" <:+: ahead.drop 2 := by
  constructor
  · rintro h ahead hahead ⟨inner, rfl⟩
    exact h inner ((mem_tails _ _).mp hahead)
  · intro h inner hinner
    exact h _ ((mem_tails _ _).mpr hinner) (prefix_append _ _)

instance (text : Bytes) : Decidable (Closed text) := decidable_of_iff' _ (closed_iff text)

variable {text inner : Bytes}

theorem Closed.suffix {rest : Bytes} (h : Closed text) (hrest : rest <:+ text) : Closed rest :=
  fun inner hinner => h inner (hinner.trans hrest)

/-- The loop over the inside of a comment stops at the closing mark. -/
theorem runLength_comment (h : ascii "*/" <:+: inner) :
    runLength (fun ahead => ahead.head? ≠ some (byte '*') ∨ ahead[1]? ≠ some (byte '/')) inner + 2 ≤
      inner.length := by
  induction inner with
  | nil => simp [ascii] at h
  | cons c rest ih =>
    rw [runLength]
    split
    · next htest =>
      -- the closing mark does not start here, so it is further on
      have hrest : ascii "*/" <:+: rest := by
        refine (infix_cons_iff.mp h).resolve_left ?_
        rintro ⟨after, hafter⟩
        rw [← hafter] at htest
        simp [ascii, byte] at htest
      have := ih hrest
      rw [length_cons]
      omega
    · next htest =>
      have hslash : (c :: rest)[1]? = some (byte '/') := by
        by_contra hne
        exact htest (decide_eq_true (.inr hne))
      obtain ⟨hlen, -⟩ := List.getElem?_eq_some_iff.mp hslash
      omega

theorem spaceLength_le (h : Closed text) (n : ℕ) : spaceLength n text ≤ text.length := by
  induction n generalizing text with
  | zero => exact Nat.zero_le _
  | succ n ih =>
    cases text with
    | nil => exact le_rfl
    | cons c after =>
      -- what comes after something passed is closed, too
      have hdrop : ∀ k, k ≤ (c :: after).length →
          k + spaceLength n ((c :: after).drop k) ≤ (c :: after).length := by
        intro k hk
        have := ih (h.suffix (drop_suffix k (c :: after)))
        rw [length_drop] at this
        omega
      rw [spaceLength]
      split_ifs with hblank hline hblock
      · exact hdrop 1 (Nat.le_add_left 1 _)
      · exact hdrop _ (runLength_le _ _)
      · refine hdrop _ ?_
        obtain ⟨rfl, hstar⟩ := hblock
        obtain ⟨inner, rfl⟩ : ∃ inner, after = byte '*' :: inner := head?_eq_some_iff.mp hstar
        have := runLength_comment (h inner suffix_rfl)
        rw [drop_one, tail_cons, length_cons, length_cons]
        omega
      · exact Nat.zero_le _

/-! ## The cursor -/

section
variable {src : Bytes} {valid : Prop} {n : ℕ} {c : Cursor UInt8} {α : Type} {format kw : String}
  {args : List String} {post : α → Cursor UInt8 → Prop} {ch : UInt8} {next : Unit → Parser α}
  {limit : ℕ}

theorem safe_errf : Safe valid (errf format args) post c := trivial

theorem safe_peekChar {post : UInt8 → Cursor UInt8 → Prop} :
    Safe valid peekChar post c ↔ post (c.rest[0]?.getD 0) c := Iff.rfl

theorem length_rest_pos (h : c.rest[0]?.getD 0 = ch) (hch : ch ≠ 0) : 0 < c.rest.length := by
  by_contra hzero
  rw [getElem?_eq_none (Nat.le_of_not_lt hzero)] at h
  exact hch h.symm

theorem safe_expect (hch : ch ≠ 0)
    (hnext : 0 < c.rest.length → Safe valid (next ()) post (c.advance 1)) :
    Safe valid (peekChar >>= fun found =>
      if found ≠ ch then errf format args else skip 1 >>= next) post c := by
  rw [safe_bind, safe_peekChar]
  split
  · exact safe_errf
  · next hfound =>
    rw [safe_bind, safe_skip]
    exact hnext (length_rest_pos (not_not.mp hfound) hch)

theorem identLength_le (first : Bool) (text : Bytes) : identLength first text ≤ text.length := by
  induction text generalizing first with
  | nil => exact le_rfl
  | cons c rest ih =>
    rw [identLength]
    split
    · exact Nat.succ_le_succ (ih false)
    · exact Nat.zero_le _

theorem safe_parseIdent (h : Inside src valid n c) :
    Safe valid parseIdent (fun word c' => Inside src valid n c' ∧
      (word ≠ [] → Inside src valid (n - 1) c')) c := by
  have hkeep := h.keep (fun _ => identLength_le true c.rest)
  unfold parseIdent
  rw [safe_bind, safe_tell, safe_bind, safe_skipBy]
  refine safe_cut hkeep fun _ => ⟨hkeep, fun hne => ?_⟩
  obtain ⟨m, rfl⟩ := h.exists_succ
  refine h.pass (Nat.pos_of_ne_zero fun hzero => hne ?_) (identLength_le true c.rest)
  rw [hzero]
  exact drop_eq_nil_of_le (length_take_le _ _)

theorem safe_parseStringID (h : Inside src valid (n + 1) c) (hrest : 0 < c.rest.length) :
    Safe valid parseStringID (fun _ c' => Inside src valid n c') c := by
  unfold parseStringID
  rw [safe_bind, safe_tell, safe_bind, safe_skip]
  refine (safe_parseIdent (h.pass one_pos hrest)).bind fun _ c' hc' => ?_
  exact safe_cut hc'.1 fun _ => hc'.1

theorem safe_parseBareWord (h : Inside src valid n c) :
    Safe valid parseBareWord (fun _ c' => Inside src valid n c') c := by
  unfold parseBareWord
  rw [safe_bind, safe_tell, safe_bind, safe_skipBy]
  have hkeep := h.keep fun _ => runLength_le (fun ahead => !ahead.head?.any isBlank) c.rest
  exact safe_cut hkeep fun _ => hkeep

variable (hclosed : valid → Closed src)
include hclosed

theorem safe_skipSpace (h : Inside src valid n c) :
    Safe valid skipSpace (fun _ c' => Inside src valid n c') c := by
  unfold skipSpace
  rw [safe_skipBy]
  refine h.keep fun hvalid => spaceLength_le ?_ _
  refine (hclosed hvalid).suffix ?_
  rw [← h.src_eq]
  exact drop_suffix _ _

theorem safe_acceptKeyword (hkw : ascii kw ≠ []) (h : Inside src valid (n + 1) c) :
    Safe valid (acceptKeyword kw)
      (fun found c' => if found then Inside src valid n c' else c' = c) c := by
  unfold acceptKeyword
  rw [safe_bind, safe_tell]
  refine (safe_skipSpace hclosed h).bind fun _ c₁ h₁ => ?_
  refine (safe_parseIdent h₁).bind fun word c₂ h₂ => ?_
  split
  -- the keyword is not the empty word, so finding it reads something
  · next hword => exact h₂.2 (hword ▸ hkw)
  · rw [safe_bind, safe_seek (h₂.1.src_eq.trans h.src_eq.symm)]
    rfl

theorem safe_atSectionHeader (h : Inside src valid n c) :
    Safe valid atSectionHeader (fun _ c' => c' = c) c := by
  unfold atSectionHeader
  rw [safe_bind, safe_tell]
  refine (safe_skipSpace hclosed h).bind fun _ c₁ h₁ => ?_
  refine (safe_parseIdent h₁).bind fun word c₂ h₂ => ?_
  refine (safe_skipSpace hclosed h₂.1).bind fun _ c₃ h₃ => ?_
  rw [safe_bind, safe_peekChar, safe_bind, safe_seek (h₃.src_eq.trans h.src_eq.symm)]
  rfl

/-! ## Literals -/

omit hclosed in
theorem safe_peekHex {post : Option UInt8 → Cursor UInt8 → Prop} (hnone : post none c)
    (hsome : 2 ≤ c.rest.length → ∀ b, post (some b) c) : Safe valid peekHex post c := by
  unfold peekHex
  rw [safe_bind, safe_look, safe_bind, safe_look, safe_pure]
  by_cases hlen : 2 ≤ c.rest.length
  · cases hhex : (do
        let hi ← c.rest[0]?.bind hexVal
        let lo ← c.rest[1]?.bind hexVal
        return UInt8.ofNat (hi <<< 4 ||| lo) : Option UInt8) with
    | none => exact hnone
    | some b => exact hsome hlen b
  · rw [getElem?_eq_none (show c.rest.length ≤ 1 by omega)]
    cases c.rest[0]?.bind hexVal <;> exact hnone

omit hclosed in
theorem safe_parseEscape (h : Inside src valid n c) :
    Safe valid parseEscape (fun _ c' => Inside src valid n c') c := by
  unfold parseEscape
  rw [safe_bind, safe_look]
  split
  · exact safe_errf
  · next ch hch =>
    obtain ⟨hlen, -⟩ := List.getElem?_eq_some_iff.mp hch
    have h₁ := h.keep (k := 1) fun _ => hlen
    rw [safe_bind, safe_skip]
    split_ifs
    · exact h₁
    · exact h₁
    · exact h₁
    · exact h₁
    · exact h₁
    · rw [safe_bind]
      refine safe_peekHex safe_errf fun hlen₂ b => ?_
      rw [safe_bind, safe_skip]
      exact h₁.keep fun _ => hlen₂
    · exact safe_errf

omit hclosed in
theorem safe_parseString (h : Inside src valid (n + 1) c) (hrest : 0 < c.rest.length) :
    Safe valid parseString (fun _ c' => Inside src valid n c') c := by
  unfold parseString
  rw [safe_bind, safe_skip]
  refine (safe_forever (fun _ => True) (fun _ => True) (fun k _ out c' _ h' => ?_) trivial
    (h.pass one_pos hrest)).mono fun _ _ hend => hend.2
  unfold stringRound
  rw [safe_bind, safe_look]
  split
  · exact safe_errf
  · next ch hch =>
    obtain ⟨hlen, -⟩ := List.getElem?_eq_some_iff.mp hch
    have hnext := h'.pass one_pos hlen
    rw [safe_bind, safe_skip]
    split_ifs
    · exact ⟨trivial, hnext.weaken⟩
    · exact (safe_parseEscape hnext).bind fun _ _ hend => ⟨trivial, hend⟩
    · exact ⟨trivial, hnext⟩

theorem safe_parseHex (h : Inside src valid (n + 1) c) (hrest : 0 < c.rest.length) :
    Safe valid parseHex (fun _ c' => Inside src valid n c') c := by
  unfold parseHex
  rw [safe_bind, safe_skip]
  refine (safe_forever (fun _ => True) (fun _ => True) (fun k _ out c₀ _ h₀ => ?_) trivial
    (h.pass one_pos hrest)).mono fun _ _ hend => hend.2
  unfold hexRound
  refine (safe_skipSpace hclosed h₀).bind fun _ c₁ h₁ => ?_
  rw [safe_bind, safe_look]
  split
  · exact safe_errf
  · next ch hch =>
    obtain ⟨hlen, -⟩ := List.getElem?_eq_some_iff.mp hch
    split_ifs
    · exact ⟨trivial, (h₁.pass one_pos hlen).weaken⟩
    · rw [safe_bind, safe_look]
      split_ifs with hwild
      · exact safe_errf
      · obtain ⟨hlen₂, -⟩ := List.getElem?_eq_some_iff.mp (not_not.mp hwild)
        exact ⟨trivial, h₁.pass two_pos hlen₂⟩
    · rw [safe_bind]
      exact safe_peekHex safe_errf fun hlen₂ b => ⟨trivial, h₁.pass two_pos hlen₂⟩

/-! ## Conditions -/

omit hclosed in
theorem safe_parseNumber (h : Inside src valid n c) :
    Safe valid parseNumber (fun _ c' => Inside src valid n c') c :=
  h.keep fun _ => (List.takeWhile_prefix isDigit).length_le

theorem safe_parseQuantifier (need : Int64) (h : Inside src valid (n + 1) c) :
    Safe valid (parseQuantifier need) (fun C c' => C = .quantNode need ∧ Inside src valid n c') c := by
  unfold parseQuantifier
  refine (safe_acceptKeyword hclosed (by decide) h).bind fun found c₁ h₁ => ?_
  cases found with
  | false => exact safe_errf
  | true =>
    obtain ⟨m, rfl⟩ := Inside.exists_succ h₁
    refine (safe_acceptKeyword hclosed (by decide) h₁).bind fun found c₂ h₂ => ?_
    cases found with
    | false => exact safe_errf
    | true => exact ⟨rfl, Inside.weaken h₂⟩

theorem safe_operands (hkw : ascii kw ≠ []) {operand : Parser Condition}
    (node : Condition → Condition → Condition)
    (hoperand : ∀ k c, k < limit → Inside src valid (k + 1) c →
      Safe valid operand (fun _ c' => Inside src valid k c') c)
    (hn : n < limit) (h : Inside src valid (n + 1) c) :
    Safe valid (chain (acceptKeyword kw) operand node) (fun _ c' => Inside src valid n c') c := by
  refine (safe_chain (fun _ => True) (fun k c hc => safe_acceptKeyword hclosed hkw hc)
    (fun k c hk hc => ?_) (fun _ _ _ _ => trivial) hn h).mono fun _ _ hend => hend.2
  exact (hoperand k c hk hc).mono fun _ _ hend => ⟨trivial, hend⟩

theorem safe_parsePrimary {parseOr : Parser Condition}
    (hor : ∀ k c, k < limit → Inside src valid (k + 1) c →
      Safe valid parseOr (fun _ c' => Inside src valid k c') c)
    (hn : n ≤ limit) (h : Inside src valid (n + 1) c) :
    Safe valid (parsePrimary parseOr) (fun _ c' => Inside src valid n c') c := by
  unfold parsePrimary
  refine (safe_skipSpace hclosed h).bind fun _ c₁ h₁ => ?_
  rw [safe_bind, safe_peekChar]
  split_ifs with hparen hdollar hdigit
  · rw [safe_bind, safe_skip]
    -- behind the parenthesis less is left, so the inner condition is within the limit
    have h₂ := h₁.pass one_pos (length_rest_pos hparen (by decide))
    obtain ⟨m, rfl⟩ := h₂.exists_succ
    refine (hor m _ hn h₂).bind fun C c₃ h₃ => ?_
    refine (safe_skipSpace hclosed h₃).bind fun _ c₄ h₄ => ?_
    exact safe_expect (by decide) fun hlen => (h₄.keep fun _ => hlen).weaken
  · refine (safe_parseStringID h₁ (length_rest_pos hdollar (by decide))).bind fun _ _ h₂ => ?_
    exact h₂
  · refine (safe_parseNumber h₁).bind fun need c₂ h₂ => ?_
    exact (safe_parseQuantifier hclosed need h₂).mono fun _ _ hend => hend.2
  · refine (safe_parseIdent h₁).bind fun word c₂ h₂ => ?_
    split_ifs with htrue hfalse hall hany
    · exact h₂.2 (htrue ▸ by decide)
    · exact h₂.2 (hfalse ▸ by decide)
    · exact (safe_parseQuantifier hclosed _ h₂.1).mono fun _ _ hend => hend.2
    · exact (safe_parseQuantifier hclosed _ h₂.1).mono fun _ _ hend => hend.2
    · exact safe_errf

/-- With as many steps as there are characters left, a condition is read to its end. -/
theorem safe_parseUnary {depth : ℕ} (hn : n < depth) (h : Inside src valid (n + 1) c) :
    Safe valid (parseUnary depth) (fun _ c' => Inside src valid n c') c := by
  induction depth generalizing n c with
  | zero => exact absurd hn (Nat.not_lt_zero _)
  | succ depth ih =>
    rw [parseUnary]
    refine (safe_acceptKeyword hclosed (by decide) h).bind fun found c₁ h₁ => ?_
    cases found with
    | true =>
      obtain ⟨m, rfl⟩ := Inside.exists_succ h₁
      refine (ih (Nat.lt_of_succ_lt_succ hn) h₁).bind fun _ _ h₂ => ?_
      exact Inside.weaken h₂
    | false =>
      -- nothing was read here, but a primary comes back to `parseUnary` only behind a parenthesis
      have hstay : c₁ = c := h₁
      rw [hstay]
      refine safe_parsePrimary hclosed (fun k c hk hc => ?_) (Nat.le_of_lt_succ hn) h
      refine safe_operands hclosed (by decide) _ (fun k c hk hc => ?_) hk hc
      exact safe_operands hclosed (by decide) _ (fun k c hk hc => ih hk hc) hk hc

theorem safe_parseCondition (h : Inside src valid (n + 1) c) :
    Safe valid parseCondition (fun _ c' => Inside src valid n c') c := by
  have hstart : Inside src valid (c.rest.length + 1) c := ⟨h.src_eq, h.pos_le, Nat.lt_succ_self _⟩
  have hor : Safe valid (parseOr (parseUnary (c.rest.length + 1)))
      (fun _ c' => Inside src valid c.rest.length c') c :=
    safe_operands hclosed (by decide) _ (fun k c hk hc =>
      safe_operands hclosed (by decide) _ (fun k c hk hc => safe_parseUnary hclosed hk hc) hk hc)
      (Nat.lt_succ_self _) hstart
  refine Safe.of_run_eq (hor.mono fun _ _ hend => hend.mono (Nat.le_of_lt_succ h.left)) ?_
  unfold parseCondition StateT.run
  rfl

/-! ## Rules -/

theorem safe_parseMeta (r : Draft) (h : Inside src valid n c) :
    Safe valid (parseMeta r)
      (fun r' c' => r'.patterns = r.patterns ∧ Inside src valid n c') c := by
  refine safe_forever (fun r' : Draft => r'.patterns = r.patterns)
    (fun r' : Draft => r'.patterns = r.patterns) (fun k _ r' c₀ hr h₀ => ?_) rfl h
  unfold metaRound
  refine (safe_atSectionHeader hclosed h₀).bind fun found c₁ hstay => ?_
  rw [hstay]
  split
  · exact ⟨hr, h₀⟩
  refine (safe_skipSpace hclosed h₀).bind fun _ c₂ h₂ => ?_
  rw [safe_bind, safe_peekChar]
  split
  · exact ⟨hr, h₂⟩
  refine (safe_parseIdent h₂).bind fun key c₃ h₃ => ?_
  split
  · exact safe_errf
  refine (safe_skipSpace hclosed h₃.1).bind fun _ c₄ h₄ => ?_
  refine safe_expect (by decide) fun hlen => ?_
  -- the value may be an empty word: what the round reads in any case is the equals sign
  refine (safe_skipSpace hclosed (h₄.pass one_pos hlen)).bind fun _ c₆ h₆ => ?_
  rw [safe_bind, safe_peekChar]
  split
  · next hquote =>
    refine (safe_parseString h₆.weaken (length_rest_pos hquote (by decide))).bind fun _ _ h₇ => ?_
    exact ⟨hr, h₇⟩
  · refine (safe_parseBareWord h₆).bind fun _ _ h₇ => ?_
    exact ⟨hr, h₇⟩

theorem safe_parseStringModifiers (h : Inside src valid n c) :
    Safe valid parseStringModifiers (fun _ c' => Inside src valid n c') c := by
  refine (safe_forever (fun _ => True) (fun _ => True) (fun k _ nocase c₀ _ h₀ => ?_) trivial
    h).mono fun _ _ hend => hend.2
  unfold modifierRound
  rw [safe_bind, safe_tell]
  refine (safe_skipSpace hclosed h₀).bind fun _ c₁ h₁ => ?_
  refine (safe_parseIdent h₁).bind fun word c₂ h₂ => ?_
  split_ifs with hnocase hother
  · exact ⟨trivial, h₂.2 (hnocase ▸ by decide)⟩
  · have hne : word ≠ [] := by
      rintro rfl
      exact absurd hother (by decide)
    exact ⟨trivial, h₂.2 hne⟩
  · rw [safe_bind, safe_seek (h₂.1.src_eq.trans h₀.src_eq.symm)]
    exact ⟨trivial, h₀⟩

theorem safe_parsePattern (id : Bytes) (h : Inside src valid n c) :
    Safe valid (parsePattern id) (fun _ c' => Inside src valid n c') c := by
  unfold parsePattern
  rw [safe_bind, safe_peekChar]
  split_ifs with hquote hbrace
  · refine (safe_parseString h.weaken (length_rest_pos hquote (by decide))).bind fun _ _ h₁ => ?_
    refine (safe_parseStringModifiers hclosed h₁).bind fun _ _ h₂ => ?_
    exact h₂
  · refine (safe_parseHex hclosed h.weaken (length_rest_pos hbrace (by decide))).bind
      fun _ _ h₁ => ?_
    exact h₁
  · exact safe_errf

def Draft.Proper (r : Draft) : Prop := ∀ pat ∈ r.patterns, pat.bytes ≠ []

theorem safe_parseStrings {r : Draft} (hr : r.Proper) (h : Inside src valid n c) :
    Safe valid (parseStrings r) (fun r' c' => r'.Proper ∧ Inside src valid n c') c := by
  refine safe_forever Draft.Proper Draft.Proper (fun k _ r' c₀ hr h₀ => ?_) hr h
  unfold stringsRound
  refine (safe_atSectionHeader hclosed h₀).bind fun found c₁ hstay => ?_
  rw [hstay]
  split
  · exact ⟨hr, h₀⟩
  refine (safe_skipSpace hclosed h₀).bind fun _ c₂ h₂ => ?_
  rw [safe_bind, safe_peekChar]
  split_ifs with hclose hdollar
  · exact ⟨hr, h₂⟩
  · exact safe_errf
  refine (safe_parseStringID h₂ (length_rest_pos (not_not.mp hdollar) (by decide))).bind
    fun id c₃ h₃ => ?_
  refine (safe_skipSpace hclosed h₃).bind fun _ c₄ h₄ => ?_
  refine safe_expect (by decide) fun hlen => ?_
  refine (safe_skipSpace hclosed (h₄.keep fun _ => hlen)).bind fun _ c₅ h₅ => ?_
  refine (safe_parsePattern hclosed id h₅).bind fun pat c₆ h₆ => ?_
  split
  · exact safe_errf
  next hne =>
  refine ⟨fun pat' hpat' => ?_, h₆⟩
  rcases mem_append.mp hpat' with hold | hnew
  · exact hr pat' hold
  · rw [mem_singleton.mp hnew]
    exact fun hnil => hne (length_eq_zero_iff.mpr hnil)

theorem safe_parseTags (h : Inside src valid n c) :
    Safe valid parseTags (fun _ c' => Inside src valid n c') c := by
  refine (safe_forever (fun _ => True) (fun _ => True) (fun k _ _ c₀ _ h₀ => ?_) trivial
    h).mono fun _ _ hend => hend.2
  refine (safe_skipSpace hclosed h₀).bind fun _ c₁ h₁ => ?_
  rw [safe_bind, safe_peekChar]
  split
  · exact ⟨trivial, h₁⟩
  refine (safe_parseIdent h₁).bind fun tag c₂ h₂ => ?_
  split
  · exact ⟨trivial, h₂.1⟩
  · next hne => exact ⟨trivial, h₂.2 hne⟩

theorem safe_sections (name : Bytes) {r : Draft} (hr : r.Proper) (h : Inside src valid n c) :
    Safe valid (forever (sectionRound name) r)
      (fun r' c' => r'.Proper ∧ Inside src valid n c') c := by
  refine safe_forever Draft.Proper Draft.Proper (fun k _ r' c₀ hr h₀ => ?_) hr h
  unfold sectionRound
  refine (safe_skipSpace hclosed h₀).bind fun _ c₁ h₁ => ?_
  rw [safe_bind, safe_look]
  split
  · next ch hch =>
    obtain ⟨hlen, -⟩ := List.getElem?_eq_some_iff.mp hch
    split
    · exact ⟨hr, h₁.keep fun _ => hlen⟩
    refine (safe_parseIdent h₁).bind fun header c₂ h₂ => ?_
    refine (safe_skipSpace hclosed h₂.1).bind fun _ c₃ h₃ => ?_
    refine safe_expect (by decide) fun hlen => ?_
    -- a section may be empty, its colon is read in any case
    have h₄ := h₃.pass one_pos hlen
    split_ifs
    · refine (safe_parseMeta hclosed r' h₄).bind fun r'' _ hend => ?_
      exact ⟨fun pat hpat => hr pat (hend.1 ▸ hpat), hend.2⟩
    · exact (safe_parseStrings hclosed hr h₄).bind fun _ _ hend => hend
    · refine (safe_parseCondition hclosed h₄.weaken).bind fun C _ hend => ?_
      exact ⟨hr, hend⟩
    · exact safe_errf
  · exact safe_errf

def Rule.Proper (r : Rule) : Prop := ∀ pat ∈ r.patterns, pat.bytes ≠ []

theorem safe_optionalTags (hnext : ∀ c', Inside src valid n c' → Safe valid (next ()) post c')
    (h : Inside src valid n c) :
    Safe valid (if c.rest[0]?.getD 0 = byte ':' then skip 1 >>= fun _ => parseTags >>= next
      else next ()) post c := by
  split
  · next hcolon =>
    have hlen := length_rest_pos hcolon (by decide)
    rw [safe_bind, safe_skip]
    exact (safe_parseTags hclosed (h.keep fun _ => hlen)).bind fun _ c' h' => hnext c' h'
  · exact hnext c h

theorem safe_parseRule (h : Inside src valid (n + 1) c) :
    Safe valid parseRule (fun r c' => r.Proper ∧ Inside src valid n c') c := by
  unfold parseRule
  refine (safe_acceptKeyword hclosed (by decide) h).bind fun found c₁ h₁ => ?_
  cases found with
  | false => exact safe_errf
  | true =>
    have h₁' : Inside src valid n c₁ := h₁
    refine (safe_skipSpace hclosed h₁').bind fun _ c₂ h₂ => ?_
    refine (safe_parseIdent h₂).bind fun name c₃ h₃ => ?_
    split
    · exact safe_errf
    refine (safe_skipSpace hclosed h₃.1).bind fun _ c₄ h₄ => ?_
    rw [safe_bind, safe_peekChar]
    refine safe_optionalTags hclosed (fun c₅ h₅ => ?_) h₄
    refine (safe_skipSpace hclosed h₅).bind fun _ c₆ h₆ => ?_
    refine safe_expect (by decide) fun hlen => ?_
    have hempty : Draft.Proper {} := by simp [Draft.Proper]
    refine (safe_sections hclosed name hempty (h₆.keep fun _ => hlen)).bind fun r c₇ h₇ => ?_
    split
    · exact safe_errf
    · exact h₇

theorem safe_compileRounds (h : Inside src valid n c) :
    Safe valid (forever compileRound []) (fun rules _ => ∀ r ∈ rules, r.Proper) c := by
  refine (safe_forever (fun rules => ∀ r ∈ rules, r.Proper) (fun rules => ∀ r ∈ rules, r.Proper)
    (fun k _ rules c₀ hrules h₀ => ?_) nofun h).mono fun _ _ hend => hend.1
  unfold compileRound
  refine (safe_skipSpace hclosed h₀).bind fun _ c₁ h₁ => ?_
  rw [safe_bind, safe_look]
  split
  · exact ⟨hrules, h₁⟩
  refine (safe_parseRule hclosed h₁).bind fun r c₂ h₂ => ?_
  refine ⟨fun r' hr' => ?_, h₂.2⟩
  rcases mem_append.mp hr' with hold | hnew
  · exact hrules r' hold
  · rw [mem_singleton.mp hnew]
    exact h₂.1

end

/-! ## A comment that is not closed -/

/-- The loop over the inside of a comment goes to the end if there is no closing mark. -/
theorem runLength_open (h : ¬ascii "*/" <:+: inner) :
    runLength (fun ahead => ahead.head? ≠ some (byte '*') ∨ ahead[1]? ≠ some (byte '/')) inner =
      inner.length := by
  induction inner with
  | nil => rfl
  | cons c rest ih =>
    have hrest : ¬ascii "*/" <:+: rest := fun hclose =>
      h (hclose.trans (suffix_cons c rest).isInfix)
    rw [runLength, ih hrest, length_cons, if_pos]
    by_contra hstop
    obtain ⟨hstar, hslash⟩ : c = byte '*' ∧ rest[0]? = some (byte '/') := by simpa using hstop
    obtain ⟨after, rfl⟩ := head?_eq_some_iff.mp (head?_eq_getElem? ▸ hslash)
    rw [hstar] at h
    exact h (prefix_append (ascii "*/") after).isInfix

theorem spaceLength_open (h : ¬ascii "*/" <:+: inner) (n : ℕ) :
    spaceLength (n + 1) (ascii "/*" ++ inner) = inner.length + 4 := by
  have hmark : ¬(byte '/' = byte '/' ∧ (byte '*' :: inner).head? = some (byte '/')) := by
    simp [byte]
  show spaceLength (n + 1) (byte '/' :: byte '*' :: inner) = _
  rw [spaceLength, if_neg (by decide), if_neg hmark, if_pos ⟨rfl, rfl⟩, drop_one,
    tail_cons, runLength_open h]
  have hend : spaceLength n ([] : Bytes) = 0 := by
    cases n <;> rfl
  dsimp only
  rw [drop_eq_nil_of_le (by simp only [length_cons]; omega), hend]
  omega

theorem run_parseIdent_past {c : Cursor UInt8} (h : c.src.length < c.pos) :
    parseIdent.run c = .error .outOfRange := by
  have hrest : c.rest = [] := drop_eq_nil_of_le h.le
  show (cut c.pos).run (c.advance (identLength true c.rest)) = _
  rw [hrest]
  show (if c.pos + 0 ≤ c.src.length then _ else _) = _
  rw [if_neg (by omega)]

/-- Skipping it leaves the position past the end, where there is no word to be cut out. -/
theorem run_word_open (h : ¬ascii "*/" <:+: inner) (before : Bytes) {α : Type}
    (f : Bytes → Parser α) :
    (skipSpace >>= fun _ => parseIdent >>= f).run (between before (ascii "/*" ++ inner)) =
      .error .outOfRange := by
  have hskip : skipSpace.run (between before (ascii "/*" ++ inner)) =
      .ok ((), (between before (ascii "/*" ++ inner)).advance (inner.length + 4)) := by
    have hspace := spaceLength_open h (inner.length + 1)
    show Except.ok ((), (between before (ascii "/*" ++ inner)).advance
      (spaceLength _ (between before (ascii "/*" ++ inner)).rest)) = _
    rw [rest_between]
    exact congrArg (fun k => Except.ok ((), Cursor.advance _ k)) hspace
  rw [run_bind_ok hskip]
  refine run_bind_error (run_parseIdent_past ?_)
  show (before ++ (ascii "/*" ++ inner)).length < before.length + (inner.length + 4)
  have htwo : (ascii "/*").length = 2 := rfl
  rw [length_append, length_append, htwo]
  omega

theorem run_parseRule_open (h : ¬ascii "*/" <:+: inner) (before : Bytes) :
    parseRule.run (between before (ascii "rule/*" ++ inner)) = .error .outOfRange := by
  have hword : IsIdent (ascii "rule") := isIdent_ascii (by decide)
  have hends : Ends (ascii "/*" ++ inner) := by
    rintro c ⟨⟩
    decide
  have hrule := acceptKeyword_reads "rule" hword blank_nil before _ hends
  have hsplit : ascii "rule/*" ++ inner =
      [] ++ ascii "rule" ++ (ascii "/*" ++ inner) := rfl
  rw [parseRule, hsplit, run_bind_ok hrule]
  exact run_word_open h _ _

end ArgusEdr.Yara
