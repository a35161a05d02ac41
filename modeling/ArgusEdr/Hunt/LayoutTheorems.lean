import ArgusEdr.Hunt.Printing

/-!
# Tokens laid out as text

The lexer reads the tokens back from every text they are laid out as (`lex_laid`): each way to
write a token is one round of the lexer, since white space ends every token that more
characters could make longer.
-/

namespace ArgusEdr.Hunt

open List

open Go (Classes)

variable {cls : Classes}

/-- A text that a token can end at. -/
def Ended (cs : List Char) : Prop := ∀ c ∈ cs.head?, Go.isSpace c = true

variable {gap tail cs ds : List Char} {c quote unit : Char} {text : String}

theorem Blank.ended_append {rest : List Char} (hgap : Blank gap) (hne : gap ≠ []) :
    Ended (gap ++ rest) := by
  cases gap with
  | nil => exact absurd rfl hne
  | cons c gap =>
    rintro _ ⟨⟩
    exact hgap c mem_cons_self

section
variable {p : Char → Bool} {cs tail : List Char}

theorem takeWhile_append_stop (hcs : ∀ c ∈ cs, p c = true)
    (htail : ∀ c ∈ tail.head?, p c = false) : (cs ++ tail).takeWhile p = cs := by
  rw [takeWhile_append_of_pos hcs]
  cases tail with
  | nil => simp
  | cons c tail => simp [htail c rfl]

theorem dropWhile_append_stop (hcs : ∀ c ∈ cs, p c = true)
    (htail : ∀ c ∈ tail.head?, p c = false) : (cs ++ tail).dropWhile p = tail := by
  rw [dropWhile_append_of_pos hcs]
  cases tail with
  | nil => simp
  | cons c tail => simp [htail c rfl]

end

theorem isIdentPart_of_isSpace (h : Go.isSpace c = true) : isIdentPart cls c = false := by
  have hne : c ≠ '_' ∧ c ≠ '.' := by
    constructor <;> rintro rfl <;> exact absurd h (by decide)
  simp [isIdentPart, cls.isLetter_of_isSpace c h, cls.isDigit_of_isSpace c h, hne]

theorem isNumberPart_of_isSpace (h : Go.isSpace c = true) : isNumberPart cls c = false := by
  have hne : c ≠ '.' := by
    rintro rfl
    exact absurd h (by decide)
  simp [isNumberPart, cls.isDigit_of_isSpace c h, hne]

theorem isDurationUnit_of_isSpace (h : Go.isSpace c = true) : isDurationUnit c = false := by
  by_contra hunit
  simp only [isDurationUnit, Bool.or_eq_true, beq_iff_eq, Bool.not_eq_false] at hunit
  rcases hunit with ((rfl | rfl) | rfl) | rfl <;> exact absurd h (by decide)

/-- A character that is neither white space nor a quote. -/
def Plain (c : Char) : Prop := Go.isSpace c = false ∧ ¬(c = '"' ∨ c = '\'')

theorem plain_of_isDigit (h : cls.isDigit c = true) : Plain c := by
  constructor
  · by_contra hspace
    rw [Bool.not_eq_false] at hspace
    rw [cls.isDigit_of_isSpace c hspace] at h
    cases h
  · rintro (rfl | rfl)
    all_goals
      rw [cls.isDigit_ascii _ (by decide)] at h
      exact absurd h (by decide)

theorem plain_of_isIdentStart (h : isIdentStart cls c = true) :
    Plain c ∧ cls.isDigit c = false := by
  simp only [isIdentStart, Bool.or_eq_true, beq_iff_eq] at h
  rcases h with h | rfl
  · refine ⟨⟨?_, ?_⟩, cls.isDigit_of_isLetter c h⟩
    · by_contra hspace
      rw [Bool.not_eq_false] at hspace
      rw [cls.isLetter_of_isSpace c hspace] at h
      cases h
    · rintro (rfl | rfl)
      all_goals
        rw [cls.isLetter_ascii _ (by decide)] at h
        exact absurd h (by decide)
  · refine ⟨⟨by decide, by decide⟩, ?_⟩
    rw [cls.isDigit_ascii _ (by decide)]
    decide

theorem lexString_cons (hc : c ≠ '\\') (cs : List Char) :
    lexString quote (c :: cs) =
      if c = quote then .ok ([], cs)
      else (lexString quote cs).map fun r => (c :: r.1, r.2) := by
  cases cs with
  | nil => simp [lexString]
  | cons =>
    rw [lexString]
    rintro _ _ ⟨⟩
    exact absurd rfl hc

theorem lexString_escape (hquote : quote ≠ '\\') (text tail : List Char) :
    lexString quote (escape quote text ++ tail) = .ok (text, tail) := by
  induction text with
  | nil =>
    rw [escape, singleton_append, lexString_cons hquote, if_pos rfl]
  | cons c text ih =>
    rw [escape]
    split
    · rw [cons_append, cons_append, lexString, ih]
      rfl
    · next hc =>
      rw [not_or] at hc
      rw [cons_append, lexString_cons hc.2, if_neg hc.1, ih]
      rfl

/-- The ASCII characters that start no word, number or string. -/
def Symbolic (c : Char) : Prop :=
  c.toNat < 128 ∧ Go.isSpace c = false ∧ ¬(c = '"' ∨ c = '\'') ∧ c.isAlpha = false ∧
    c.isDigit = false ∧ c ≠ '_'

instance (c : Char) : Decidable (Symbolic c) := by
  unfold Symbolic; infer_instance

theorem lexToken_symbolic (h : Symbolic c) (cs : List Char) :
    lexToken cls c cs = (lexSymbol c cs).map fun r => (some r.1, r.2) := by
  obtain ⟨hascii, hspace, hquote, halpha, hdigit, hunder⟩ := h
  have hplain : Plain c := ⟨hspace, hquote⟩
  unfold lexToken
  rw [if_neg (by simp [hplain.1]), if_neg hplain.2, if_neg, if_neg]
  · simp [isIdentStart, cls.isLetter_ascii c hascii, halpha, hunder]
  · simp [cls.isDigit_ascii c hascii, hdigit]

theorem two_not_mem (htail : Ended tail) : two c tail ∉ ["==", "!=", ">=", "<=", "=~"] := by
  cases tail with
  | nil =>
    show "" ∉ _
    decide
  | cons d tail =>
    have hd : d ≠ '=' ∧ d ≠ '~' := by
      constructor <;> rintro rfl <;> exact absurd (htail _ rfl) (by decide)
    have hlist : ∀ s : String, s.toList ≠ [c, d] → String.ofList [c, d] ≠ s := by
      rintro _ hs rfl
      exact hs String.toList_ofList
    simp only [two, mem_cons, not_mem_nil, or_false, not_or]
    refine ⟨hlist _ ?_, hlist _ ?_, hlist _ ?_, hlist _ ?_, hlist _ ?_⟩ <;> simp [hd.1.symm, hd.2.symm]

theorem exists_toList_cons {p : Char → Bool} (h : text.toList.head?.any p = true) :
    ∃ c cs, text.toList = c :: cs ∧ p c = true := by
  cases htext : text.toList with
  | nil => simp [htext] at h
  | cons c cs => exact ⟨c, cs, rfl, by simpa [htext] using h⟩

theorem lexToken_ident (h : IsIdent cls text) (htail : Ended tail) :
    ∃ c rest, text.toList = c :: rest ∧
      lexToken cls c (rest ++ tail) = .ok (some (word text), tail) := by
  obtain ⟨hhead, hall⟩ := h
  obtain ⟨c, rest, htext, hc⟩ := exists_toList_cons hhead
  refine ⟨c, rest, htext, ?_⟩
  obtain ⟨hplain, hdigit⟩ := plain_of_isIdentStart hc
  have hall' : ∀ d ∈ c :: rest, isIdentPart cls d = true := by
    rw [htext, all_eq_true] at hall
    exact hall
  have hstop : ∀ d ∈ tail.head?, isIdentPart cls d = false := fun d hd =>
    isIdentPart_of_isSpace (htail d hd)
  unfold lexToken
  rw [if_neg (by simp [hplain.1]), if_neg hplain.2, if_neg (by simp [hdigit]), if_pos hc,
    ← cons_append, takeWhile_append_stop hall' hstop, dropWhile_append_stop hall' hstop,
    ← htext, String.ofList_toList]
  rfl

theorem lexToken_string (text : String) (h : quote = '"' ∨ quote = '\'') (tail : List Char) :
    lexToken cls quote (escape quote text.toList ++ tail) = .ok (some ⟨.string, text⟩, tail) := by
  have hquote : quote ≠ '\\' ∧ Go.isSpace quote = false := by
    rcases h with rfl | rfl <;> decide
  unfold lexToken
  rw [if_neg (by simp [hquote.2]), if_pos h, lexString_escape hquote.1]
  simp [Except.map]

theorem lexToken_isDigit (h : cls.isDigit c = true) (cs : List Char) :
    lexToken cls c cs = .ok ((lexNumber cls (c :: cs)).map some id) := by
  have hplain := plain_of_isDigit h
  unfold lexToken
  rw [if_neg (by simp [hplain.1]), if_neg hplain.2, if_pos h]

def NumberEnded (cls : Classes) (cs : List Char) : Prop :=
  ∀ c ∈ cs.head?, isNumberPart cls c = false ∧ isDurationUnit c = false

theorem Ended.numberEnded (h : Ended cs) : NumberEnded cls cs := fun c hc =>
  ⟨isNumberPart_of_isSpace (h c hc), isDurationUnit_of_isSpace (h c hc)⟩

theorem lexToken_number (h : IsNumber cls text) (htail : NumberEnded cls tail) :
    ∃ c rest, text.toList = c :: rest ∧
      lexToken cls c (rest ++ tail) = .ok (some ⟨.number, text⟩, tail) := by
  obtain ⟨hhead, hall⟩ := h
  obtain ⟨c, rest, htext, hc⟩ := exists_toList_cons hhead
  refine ⟨c, rest, htext, ?_⟩
  have hall' : ∀ d ∈ c :: rest, isNumberPart cls d = true := by
    rw [htext, all_eq_true] at hall
    exact hall
  have hunit : tail.head?.any isDurationUnit = false := by
    cases tail with
    | nil => rfl
    | cons d tail => exact (htail d rfl).2
  have hstop : ∀ d ∈ tail.head?, isNumberPart cls d = false := fun d hd => (htail d hd).1
  rw [lexToken_isDigit hc, ← cons_append, lexNumber, takeWhile_append_stop hall' hstop,
    dropWhile_append_stop hall' hstop, ← htext, String.ofList_toList]
  simp [hunit]

theorem isDigit_of_digits {n : ℕ} (h : Go.Digits ds n) : ∀ c ∈ ds, cls.isDigit c = true := by
  intro c hc
  have hdigit := h.2.1 c hc
  rw [cls.isDigit_ascii c, hdigit]
  rw [Go.isDigit_iff] at hdigit
  omega

theorem isNumberPart_of_isDurationUnit (h : isDurationUnit c = true) :
    isNumberPart cls c = false := by
  simp only [isDurationUnit, Bool.or_eq_true, beq_iff_eq] at h
  rcases h with ((rfl | rfl) | rfl) | rfl <;>
    rw [isNumberPart, cls.isDigit_ascii _ (by decide)] <;> decide

theorem lexToken_duration {n : ℕ} (hds : Go.Digits ds n) (hunit : isDurationUnit unit = true)
    (htail : NumberEnded cls tail) :
    ∃ c rest, ds ++ [unit] = c :: rest ∧ lexToken cls c (rest ++ tail) =
      .ok (some ⟨.duration, String.ofList (ds ++ [unit])⟩, tail) := by
  have hisDigit : ∀ c ∈ ds, cls.isDigit c = true := isDigit_of_digits hds
  have hu : isNumberPart cls unit = false := isNumberPart_of_isDurationUnit hunit
  have hstop : ∀ d ∈ tail.head?, isDurationUnit d = false := fun d hd => (htail d hd).2
  have htake : (unit :: tail).takeWhile isDurationUnit = [unit] :=
    takeWhile_append_stop (forall_mem_singleton.mpr hunit) hstop
  have hdrop : (unit :: tail).dropWhile isDurationUnit = tail :=
    dropWhile_append_stop (forall_mem_singleton.mpr hunit) hstop
  cases ds with
  | nil => exact absurd rfl hds.1
  | cons c ds =>
    refine ⟨c, ds ++ [unit], rfl, ?_⟩
    have hpart : ∀ d ∈ c :: ds, isNumberPart cls d = true := by
      intro d hd
      simp [isNumberPart, hisDigit d hd]
    have htext : c :: (ds ++ [unit] ++ tail) = (c :: ds) ++ unit :: tail := by simp
    have hnumber : ((c :: ds) ++ unit :: tail).takeWhile (isNumberPart cls) = c :: ds := by
      rw [takeWhile_append_of_pos hpart, takeWhile_cons_of_neg (by simp [hu]),
        append_nil]
    have hrest : ((c :: ds) ++ unit :: tail).dropWhile (isNumberPart cls) = unit :: tail := by
      rw [dropWhile_append_of_pos hpart, dropWhile_cons_of_neg (by simp [hu])]
    rw [lexToken_isDigit (hisDigit c mem_cons_self), htext, lexNumber, hnumber, hrest, htake,
      hdrop]
    simp [hunit]

theorem isDurationUnit_of_mem {size : ℕ} (h : (unit, size) ∈ Go.wholeUnits) :
    isDurationUnit unit = true := by
  simp only [Go.wholeUnits, mem_cons, Prod.mk.injEq, not_mem_nil, or_false] at h
  rcases h with ⟨rfl, -⟩ | ⟨rfl, -⟩ | ⟨rfl, -⟩ <;> decide

theorem lexToken_symbols {t : Token} (h : t ∈ symbols) (htail : Ended tail) :
    ∃ c rest, t.text.toList = c :: rest ∧ lexToken cls c (rest ++ tail) = .ok (some t, tail) := by
  have htwo : ∀ c d : Char, Symbolic c → lexSymbol c (d :: tail) = .ok (t, tail) →
      lexToken cls c ([d] ++ tail) = .ok (some t, tail) := by
    intro c d hc hsymbol
    rw [lexToken_symbolic hc, singleton_append, hsymbol]
    rfl
  have hone : ∀ c : Char, Symbolic c →
      (two c tail ∉ ["==", "!=", ">=", "<=", "=~"] → lexSymbol c tail = .ok (t, tail)) →
      lexToken cls c ([] ++ tail) = .ok (some t, tail) := by
    intro c hc hsymbol
    rw [lexToken_symbolic hc, nil_append, hsymbol (two_not_mem htail)]
    rfl
  simp only [symbols, mem_cons, not_mem_nil, or_false] at h
  rcases h with rfl | rfl | rfl | rfl | rfl | rfl | rfl | rfl | rfl | rfl | rfl | rfl | rfl
  · exact ⟨'=', ['='], rfl, htwo _ _ (by decide) rfl⟩
  · exact ⟨'!', ['='], rfl, htwo _ _ (by decide) rfl⟩
  · exact ⟨'>', ['='], rfl, htwo _ _ (by decide) rfl⟩
  · exact ⟨'<', ['='], rfl, htwo _ _ (by decide) rfl⟩
  · exact ⟨'=', ['~'], rfl, htwo _ _ (by decide) rfl⟩
  · exact ⟨'>', [], rfl, hone _ (by decide) fun h => if_neg h⟩
  · exact ⟨'<', [], rfl, hone _ (by decide) fun h => if_neg h⟩
  · exact ⟨'|', [], rfl, hone _ (by decide) fun h => if_neg h⟩
  · exact ⟨'(', [], rfl, hone _ (by decide) fun h => if_neg h⟩
  · exact ⟨')', [], rfl, hone _ (by decide) fun h => if_neg h⟩
  · exact ⟨',', [], rfl, hone _ (by decide) fun h => if_neg h⟩
  · exact ⟨':', [], rfl, hone _ (by decide) fun h => if_neg h⟩
  · exact ⟨';', [], rfl, hone _ (by decide) fun h => if_neg h⟩

theorem lexToken_spelled {t : Token} (h : Spelled cls t cs) (htail : Ended tail) :
    ∃ c rest, cs = c :: rest ∧ lexToken cls c (rest ++ tail) = .ok (some t, tail) := by
  cases h with
  | ident h => exact lexToken_ident h htail
  | string text h => exact ⟨_, _, rfl, lexToken_string text h tail⟩
  | number h => exact lexToken_number h htail.numberEnded
  | duration hds hunit => exact lexToken_duration hds (isDurationUnit_of_mem hunit) htail.numberEnded
  | symbol h => exact lexToken_symbols h htail

theorem lex_blank_append (hgap : Blank gap) (rest : List Char) :
    lex cls (gap ++ rest) = lex cls rest := by
  induction gap with
  | nil => rfl
  | cons c gap ih =>
    have hround : lexToken cls c (gap ++ rest) = .ok (none, gap ++ rest) := by
      unfold lexToken
      rw [if_pos (hgap c mem_cons_self)]
    rw [cons_append, lex_cons hround, ih fun d hd => hgap d (mem_cons_of_mem c hd)]
    cases lex cls rest <;> rfl

/-- The lexer reads the tokens back from every text they are laid out as. -/
theorem lex_laid {ts : List Token} (h : Laid cls ts cs) : lex cls cs = .ok (ts ++ [.eof]) := by
  induction h with
  | @nil gap hgap =>
    rw [← append_nil gap, lex_blank_append hgap, lex]
    rfl
  | @cons t ts cs gap rest ht hgap hne hts ih =>
    have htail : Ended (gap ++ rest) := by
      by_cases hts' : ts = []
      · subst hts'
        cases hts with
        | nil hrest =>
          cases gap with
          | nil =>
            intro c hc
            exact hrest c (mem_of_mem_head? hc)
          | cons => exact hgap.ended_append (by simp)
      · exact hgap.ended_append (hne hts')
    obtain ⟨c, cs', rfl, hround⟩ := lexToken_spelled ht htail
    rw [cons_append, lex_cons hround, lex_blank_append hgap, ih]
    rfl

end ArgusEdr.Hunt
