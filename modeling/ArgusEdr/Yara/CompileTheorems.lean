import ArgusEdr.Yara.ScanTheorems

/-!
# What the parser of signatures reads

Each function of the parser reads what `print` writes for it, whatever comes before and as long as
what comes after does not run on: an identifier ends where no letter or digit follows (`Ends`), and a
list of modifiers or operands where the next word (`NextWord`) is none of them.
-/

namespace ArgusEdr.Yara

open List

open Go (Bytes)
open Reading Reading.Cursor

/-! ## Space and words -/

def Blank (gap : Bytes) : Prop := ∀ c ∈ gap, isBlank c = true

instance (gap : Bytes) : Decidable (Blank gap) :=
  inferInstanceAs (Decidable (∀ c ∈ gap, isBlank c = true))

theorem blank_nil : Blank [] := by simp [Blank]

theorem blank_space : Blank [byte ' '] := by simp [Blank, isBlank]

/-- No space or comment starts here. -/
def Solid : Bytes → Prop
  | [] => True
  | c :: _ => isBlank c = false ∧ c ≠ byte '/'

/-- No identifier goes on here. -/
def Ends (rest : Bytes) : Prop := ∀ c ∈ rest.head?, (isAlpha c || isDigit c) = false

/-- The text `w ++ rest` starts with the identifier `w`, or with none if `w` is empty. -/
def Word (w rest : Bytes) : Prop := identLength true (w ++ rest) = w.length

def NextWord (P : Bytes → Prop) (text : Bytes) : Prop :=
  ∃ gap w rest, Blank gap ∧ Solid (w ++ rest) ∧ Word w rest ∧ text = gap ++ (w ++ rest) ∧ P w

variable {gap rest w text source : Bytes} {kw : String} {c : UInt8} {P : Bytes → Prop}

theorem spaceLength_append (hgap : Blank gap) (hrest : Solid rest) {n : ℕ} (hn : gap.length ≤ n) :
    spaceLength n (gap ++ rest) = gap.length := by
  induction gap generalizing n with
  | nil =>
    cases n with
    | zero => rfl
    | succ =>
      cases rest with
      | nil => rfl
      | cons =>
        obtain ⟨hblank, hslash⟩ := hrest
        rw [nil_append, spaceLength, if_neg (by simp [hblank]), if_neg (by simp [hslash]),
          if_neg (by simp [hslash])]
        rfl
  | cons c gap ih =>
    obtain ⟨hc, hgap⟩ := forall_mem_cons.mp hgap
    cases n with
    | zero => cases hn
    | succ =>
      rw [cons_append, spaceLength, if_pos hc, ih hgap (Nat.le_of_succ_le_succ hn),
        length_cons, Nat.add_comm]

theorem skipSpace_reads (hgap : Blank gap) : Reads Solid skipSpace gap () := by
  intro before rest hrest
  refine run_skipBy ?_ before
  exact spaceLength_append hgap hrest (by simp)

theorem run_skipSpace_solid (h : Solid rest) (before : Bytes) :
    skipSpace.run (between before rest) = .ok ((), between before rest) := by
  have hread := skipSpace_reads blank_nil before rest h
  rwa [nil_append, append_nil] at hread

theorem identLength_false_append (hw : ∀ d ∈ w, (isAlpha d || isDigit d) = true)
    (hrest : Ends rest) : identLength false (w ++ rest) = w.length := by
  induction w with
  | nil =>
    cases rest with
    | nil => rfl
    | cons c rest =>
      have hc := hrest c rfl
      rw [nil_append, identLength, Bool.not_false, Bool.true_and, hc]
      rfl
  | cons d w ih =>
    obtain ⟨hd, hw⟩ := forall_mem_cons.mp hw
    rw [cons_append, identLength, Bool.not_false, Bool.true_and, if_pos hd, ih hw,
      length_cons]

theorem IsIdent.word (hw : IsIdent w) (hrest : Ends rest) : Word w rest := by
  cases w with
  | nil => exact hw.elim
  | cons =>
    rw [Word, cons_append, identLength, if_pos (by simp [hw.1]),
      identLength_false_append hw.2 hrest, length_cons]

theorem word_nil (h : ∀ c ∈ rest.head?, isAlpha c = false) : Word [] rest := by
  cases rest with
  | nil => rfl
  | cons c rest =>
    have hc := h c rfl
    rw [Word, nil_append, identLength, if_neg (by simp [hc])]
    rfl

theorem isAlpha_spec : ∀ b : UInt8, isAlpha b = true →
    Solid [b] ∧ isDigit b ≠ true ∧ b ≠ byte '(' ∧ b ≠ byte '$' ∧ b ≠ byte '}' := by
  unfold Solid
  decide +kernel

theorem isDigit_spec : ∀ b : UInt8, isDigit b = true →
    Solid [b] ∧ isAlpha b = false ∧ b ≠ byte '(' ∧ b ≠ byte '$' := by
  unfold Solid
  decide +kernel

theorem IsIdent.solid (hw : IsIdent w) (rest : Bytes) : Solid (w ++ rest) := by
  cases w with
  | nil => exact hw.elim
  | cons c cs => exact (isAlpha_spec c hw.1).1

theorem isIdent_ascii
    (h : kw ∈ ["rule", "strings", "condition", "nocase", "not", "and", "or", "true", "false", "all",
      "any", "of", "them"]) : IsIdent (Go.ascii kw) := by
  simp only [mem_cons, not_mem_nil, or_false] at h
  rcases h with rfl | rfl | rfl | rfl | rfl | rfl | rfl | rfl | rfl | rfl | rfl | rfl | rfl
  all_goals simp [IsIdent, Go.ascii, isAlpha, byte]

theorem run_parseIdent (h : Word w rest) (before : Bytes) :
    parseIdent.run (between before (w ++ rest)) = .ok (w, between (before ++ w) rest) := by
  rw [parseIdent, run_bind_ok (run_tell before _), run_bind_ok (run_skipBy h before), run_cut]

theorem run_peekChar (h : text.head? = some c) (before : Bytes) :
    peekChar.run (between before text) = .ok (c, between before text) := by
  rw [peekChar, run_bind_ok (run_look 0 before text), ← head?_eq_getElem?, h]
  rfl

theorem run_acceptKeyword (hgap : Blank gap) (hsolid : Solid (w ++ rest)) (hword : Word w rest)
    (before : Bytes) :
    (acceptKeyword kw).run (between before (gap ++ (w ++ rest))) =
      if w = Go.ascii kw then .ok (true, between (before ++ (gap ++ w)) rest)
      else .ok (false, between before (gap ++ (w ++ rest))) := by
  rw [acceptKeyword, run_bind_ok (run_tell before _),
    run_bind_ok (skipSpace_reads hgap before _ hsolid), run_bind_ok (run_parseIdent hword _)]
  split
  · rw [append_assoc]
    rfl
  · rw [append_assoc, run_bind_ok (run_seek before (gap ++ w) rest), append_assoc]
    rfl

theorem NextWord.declines (h : NextWord (· ≠ Go.ascii kw) text) :
    Declines (acceptKeyword kw) text := by
  obtain ⟨gap, w, rest, hgap, hsolid, hword, rfl, hne⟩ := h
  intro before
  rw [run_acceptKeyword hgap hsolid hword, if_neg hne]

theorem NextWord.mono {Q : Bytes → Prop} (h : NextWord P text) (himp : ∀ w, P w → Q w) :
    NextWord Q text := by
  obtain ⟨gap, w, rest, hgap, hsolid, hword, htext, hw⟩ := h
  exact ⟨gap, w, rest, hgap, hsolid, hword, htext, himp w hw⟩

theorem acceptKeyword_reads (kw : String) (hkw : IsIdent (Go.ascii kw)) (hgap : Blank gap) :
    Reads Ends (acceptKeyword kw) (gap ++ Go.ascii kw) true := by
  intro before rest hrest
  rw [append_assoc, run_acceptKeyword hgap (hkw.solid rest) (hkw.word hrest), if_pos rfl]

theorem run_atSectionHeader (hgap : Blank gap) (hsolid : Solid (w ++ c :: rest))
    (hword : Word w (c :: rest)) (hc : Solid (c :: rest)) (before : Bytes) :
    atSectionHeader.run (between before (gap ++ (w ++ c :: rest))) =
      .ok (decide (w ≠ [] ∧ c = byte ':'), between before (gap ++ (w ++ c :: rest))) := by
  rw [atSectionHeader, run_bind_ok (run_tell before _),
    run_bind_ok (skipSpace_reads hgap before _ hsolid), run_bind_ok (run_parseIdent hword _),
    run_bind_ok (run_skipSpace_solid hc _), run_bind_ok (run_peekChar head?_cons _),
    append_assoc, run_bind_ok (run_seek before (gap ++ w) _), append_assoc]
  rfl

/-! ## Literals -/

/-- Nothing that follows makes a difference. -/
abbrev Anything : Bytes → Prop := fun _ => True

theorem parseStringID_reads {name : Bytes} (h : name = [] ∨ IsIdent name) :
    Reads Ends parseStringID (byte '$' :: name) (byte '$' :: name) := by
  intro before rest hrest
  have hword : Word name rest := by
    rcases h with rfl | hident
    · refine word_nil fun c hc => ?_
      have hend := hrest c hc
      rw [Bool.or_eq_false_iff] at hend
      exact hend.1
    · exact hident.word hrest
  rw [parseStringID, run_bind_ok (run_tell before _), cons_append,
    run_bind_ok (run_skip_one before _ _), run_bind_ok (run_parseIdent hword _), append_assoc,
    singleton_append, run_cut]

theorem run_peekHex (b : UInt8) (before rest : Bytes) :
    peekHex.run (between before (hexPair b ++ rest)) =
      .ok (some b, between before (hexPair b ++ rest)) := by
  have hvalue : ∀ b : UInt8, (do
      let hi ← hexVal (hexDigit (b.toNat / 16))
      let lo ← hexVal (hexDigit (b.toNat % 16))
      return UInt8.ofNat (hi <<< 4 ||| lo)) = some b := by
    decide +kernel
  rw [peekHex, run_bind_ok (run_look 0 before _), run_bind_ok (run_look 1 before _)]
  exact congrArg (fun value => Except.ok (value, _)) (hvalue b)

theorem length_hexPair (b : UInt8) : (hexPair b).length = 2 := rfl

theorem parseEscape_hex (b : UInt8) :
    Reads Anything parseEscape (byte 'x' :: hexPair b) b := by
  intro before rest _
  rw [parseEscape, cons_append, run_bind_ok (run_look 0 before _)]
  show (skip 1 >>= _ : Parser UInt8).run _ = _
  rw [run_bind_ok (run_skip_one before _ _)]
  show (peekHex >>= _ : Parser UInt8).run _ = _
  rw [run_bind_ok (run_peekHex b _ rest)]
  show (skip 2 >>= _ : Parser UInt8).run _ = _
  rw [run_bind_ok (run_skip (length_hexPair b) _ rest), append_assoc]
  rfl

theorem parseEscape_char {b : UInt8}
    (h : (c, b) ∈ [(byte 'n', byte '\n'), (byte 't', byte '\t'), (byte 'r', byte '\r'),
      (byte '\\', byte '\\'), (byte '"', byte '"')]) :
    Reads Anything parseEscape [c] b := by
  intro before rest _
  rw [parseEscape, singleton_append, run_bind_ok (run_look 0 before _)]
  show (skip 1 >>= _ : Parser UInt8).run _ = _
  rw [run_bind_ok (run_skip_one before _ _)]
  simp only [mem_cons, not_mem_nil, or_false, Prod.mk.injEq] at h
  rcases h with ⟨rfl, rfl⟩ | ⟨rfl, rfl⟩ | ⟨rfl, rfl⟩ | ⟨rfl, rfl⟩ | ⟨rfl, rfl⟩
  all_goals rfl

theorem stringRound_escape {b : UInt8} (h : Reads Anything parseEscape text b) (out : Bytes) :
    Reads Anything (stringRound out) (byte '\\' :: text) (.inl (out ++ [b])) := by
  intro before rest _
  rw [stringRound, cons_append, run_bind_ok (run_look 0 before _)]
  show (skip 1 >>= _ : Parser (Bytes ⊕ Bytes)).run _ = _
  rw [run_bind_ok (run_skip_one before _ _)]
  show (parseEscape >>= _ : Parser (Bytes ⊕ Bytes)).run _ = _
  rw [run_bind_ok (h _ rest trivial), append_assoc]
  rfl

theorem stringRound_plain (hquote : c ≠ byte '"') (hslash : c ≠ byte '\\') (out : Bytes) :
    Reads Anything (stringRound out) [c] (.inl (out ++ [c])) := by
  intro before rest _
  rw [stringRound, singleton_append, run_bind_ok (run_look 0 before _)]
  show (skip 1 >>= _ : Parser (Bytes ⊕ Bytes)).run _ = _
  rw [run_bind_ok (run_skip_one before _ _), if_neg hquote, if_neg hslash]
  rfl

theorem stringRound_reads (b : UInt8) (out : Bytes) :
    Reads Anything (stringRound out) (escape b) (.inl (out ++ [b])) := by
  unfold escape
  split_ifs with hn ht hr hslash hquote hprintable
  · exact stringRound_escape (parseEscape_char (by simp [hn])) out
  · exact stringRound_escape (parseEscape_char (by simp [ht])) out
  · exact stringRound_escape (parseEscape_char (by simp [hr])) out
  · exact stringRound_escape (parseEscape_char (by simp [hslash])) out
  · exact stringRound_escape (parseEscape_char (by simp [hquote])) out
  · exact stringRound_plain hquote hslash out
  · exact stringRound_escape (parseEscape_hex b) out

theorem escape_ne_nil (b : UInt8) : escape b ≠ [] := by
  unfold escape
  split_ifs <;> simp

theorem stringRounds_reads (bytes out : Bytes) :
    Reads Anything (forever stringRound out) (bytes.flatMap escape ++ [byte '"'])
      (out ++ bytes) := by
  induction bytes generalizing out with
  | nil =>
    refine Reads.last fun before rest _ => ?_
    rw [flatMap_nil, nil_append, stringRound, singleton_append,
      run_bind_ok (run_look 0 before _)]
    show (skip 1 >>= _ : Parser (Bytes ⊕ Bytes)).run _ = _
    rw [run_bind_ok (run_skip_one before _ _), append_nil]
    rfl
  | cons b bytes ih =>
    have hrest := ih (out ++ [b])
    rw [append_assoc, singleton_append] at hrest
    rw [flatMap_cons, append_assoc]
    exact (stringRound_reads b out).step (escape_ne_nil b) hrest fun _ _ => trivial

theorem parseString_reads (bytes : Bytes) :
    Reads Anything parseString (byte '"' :: (bytes.flatMap escape ++ [byte '"'])) bytes := by
  intro before rest hrest
  rw [parseString, cons_append, run_bind_ok (run_skip_one before _ _),
    stringRounds_reads bytes [] _ rest hrest, append_assoc]
  rfl

theorem hexDigit_spec (n : ℕ) (hn : n < 16) : Solid [hexDigit n] ∧ hexDigit n ≠ byte '}' ∧
    hexDigit n ≠ byte '?' := by
  have hall : ∀ n : Fin 16, (isBlank (hexDigit n) = false ∧ hexDigit n ≠ byte '/') ∧
      hexDigit n ≠ byte '}' ∧ hexDigit n ≠ byte '?' := by
    decide +kernel
  exact hall ⟨n, hn⟩

theorem hexRound_reads (h : Option UInt8) (out : List HexByte) :
    Reads Anything (hexRound out) (byte ' ' :: hexPosition h) (.inl (out ++ [hexByte h])) := by
  intro before rest _
  cases h with
  | none =>
    have hsolid : Solid ([byte '?', byte '?'] ++ rest) := ⟨by decide, by decide⟩
    have hlen : [byte '?', byte '?'].length = 2 := rfl
    show (hexRound out).run (between before ([byte ' '] ++ ([byte '?', byte '?'] ++ rest))) = _
    rw [hexRound, run_bind_ok (skipSpace_reads blank_space before _ hsolid),
      run_bind_ok (run_look 0 _ _)]
    show (look 1 >>= _ : Parser (List HexByte ⊕ List HexByte)).run _ = _
    rw [run_bind_ok (run_look 1 _ _)]
    show (skip 2 >>= _ : Parser (List HexByte ⊕ List HexByte)).run _ = _
    rw [run_bind_ok (run_skip hlen _ rest), append_assoc]
    rfl
  | some v =>
    obtain ⟨hsolid, hclose, hwild⟩ := hexDigit_spec (v.toNat / 16) (by have := v.toNat_lt; omega)
    have hsolid' : Solid (hexPair v ++ rest) := hsolid
    show (hexRound out).run (between before ([byte ' '] ++ (hexPair v ++ rest))) = _
    rw [hexRound, run_bind_ok (skipSpace_reads blank_space before _ hsolid'),
      run_bind_ok (run_look 0 _ _)]
    show (if hexDigit (v.toNat / 16) = byte '}' then _ else _ :
      Parser (List HexByte ⊕ List HexByte)).run _ = _
    rw [if_neg hclose, if_neg hwild, run_bind_ok (run_peekHex v _ rest)]
    show (skip 2 >>= _ : Parser (List HexByte ⊕ List HexByte)).run _ = _
    rw [run_bind_ok (run_skip (length_hexPair v) _ rest), append_assoc]
    rfl

theorem hexRounds_reads (bytes : List (Option UInt8)) (out : List HexByte) :
    Reads Anything (forever hexRound out)
      (bytes.flatMap (fun h => byte ' ' :: hexPosition h) ++ Go.ascii " \x7d")
      (out ++ bytes.map hexByte) := by
  induction bytes generalizing out with
  | nil =>
    refine Reads.last fun before rest _ => ?_
    have hsolid : Solid (byte '}' :: rest) := ⟨by decide, by decide⟩
    show (hexRound out).run (between before ([byte ' '] ++ byte '}' :: rest)) = _
    rw [hexRound, run_bind_ok (skipSpace_reads blank_space before _ hsolid),
      run_bind_ok (run_look 0 _ _)]
    show (skip 1 >>= _ : Parser (List HexByte ⊕ List HexByte)).run _ = _
    rw [run_bind_ok (run_skip_one _ _ rest), append_assoc, map_nil, append_nil]
    rfl
  | cons h bytes ih =>
    have hrest := ih (out ++ [hexByte h])
    rw [append_assoc, singleton_append] at hrest
    rw [flatMap_cons, append_assoc, map_cons]
    exact (hexRound_reads h out).step (cons_ne_nil _ _) hrest fun _ _ => trivial

theorem parseHex_reads (bytes : List (Option UInt8)) :
    Reads Anything parseHex
      (byte '\x7b' :: (bytes.flatMap (fun h => byte ' ' :: hexPosition h) ++ Go.ascii " \x7d"))
      (bytes.map hexByte) := by
  intro before rest hrest
  rw [parseHex, cons_append, run_bind_ok (run_skip_one before _ _),
    hexRounds_reads bytes [] _ rest hrest, append_assoc]
  rfl

/-! ## Declarations -/

def NoModifier (w : Bytes) : Prop :=
  w ≠ Go.ascii "nocase" ∧ w ∉ ["ascii", "wide", "fullword", "private"].map Go.ascii

instance (w : Bytes) : Decidable (NoModifier w) := inferInstanceAs (Decidable (_ ∧ _))

theorem modifierRounds_reads (nocase : Bool) :
    Reads (NextWord NoModifier) (forever modifierRound nocase) [] nocase := by
  refine Reads.last fun before text htext => ?_
  obtain ⟨gap, w, rest, hgap, hsolid, hword, rfl, hnocase, hother⟩ := htext
  rw [modifierRound, nil_append, run_bind_ok (run_tell before _),
    run_bind_ok (skipSpace_reads hgap before _ hsolid), run_bind_ok (run_parseIdent hword _),
    if_neg hnocase, if_neg hother, append_assoc, run_bind_ok (run_seek before (gap ++ w) rest),
    append_assoc, append_nil]
  rfl

theorem parseStringModifiers_reads (nocase : Bool) :
    Reads (fun rest => Ends rest ∧ NextWord NoModifier rest) parseStringModifiers
      (if nocase then Go.ascii " nocase" else []) nocase := by
  cases nocase with
  | false => exact (modifierRounds_reads false).mono fun _ hrest => hrest.2
  | true =>
    have hident : IsIdent (Go.ascii "nocase") := isIdent_ascii (by simp)
    have hround : Reads Ends (modifierRound false) (Go.ascii " nocase") (.inl true) := by
      intro before rest hrest
      show (modifierRound false).run (between before ([byte ' '] ++ (Go.ascii "nocase" ++ rest))) = _
      rw [modifierRound, run_bind_ok (run_tell before _),
        run_bind_ok (skipSpace_reads blank_space before _ (hident.solid rest)),
        run_bind_ok (run_parseIdent (hident.word hrest) _), if_pos rfl, append_assoc]
      rfl
    exact hround.step (by decide) ((modifierRounds_reads true).mono fun _ hrest => hrest.2)
      fun _ hrest => hrest.1

def AfterDeclaration (rest : Bytes) : Prop := Ends rest ∧ NextWord NoModifier rest

theorem parsePattern_reads (d : Declaration) :
    Reads AfterDeclaration (parsePattern d.id) d.literal.print d.pattern := by
  intro before rest hrest
  unfold parsePattern Declaration.pattern
  cases d.literal with
  | text bytes nocase =>
    have htext : Literal.print (.text bytes nocase) =
        (byte '"' :: (bytes.flatMap escape ++ [byte '"'])) ++
          if nocase then Go.ascii " nocase" else [] := by
      simp [Literal.print]
    have hquote : ∀ after, (byte '"' :: (bytes.flatMap escape ++ [byte '"']) ++ after).head? =
        some (byte '"') := fun _ => rfl
    rw [htext, append_assoc, run_bind_ok (run_peekChar (hquote _) before), if_pos rfl,
      run_bind_ok (parseString_reads bytes before _ trivial),
      run_bind_ok (parseStringModifiers_reads nocase _ rest hrest), append_assoc]
    rfl
  | hex bytes =>
    have hopen : (Literal.print (.hex bytes) ++ rest).head? = some (byte '\x7b') := rfl
    rw [run_bind_ok (run_peekChar hopen before), if_neg (by decide), if_pos rfl, Literal.print,
      run_bind_ok (parseHex_reads bytes before rest trivial)]
    rfl

theorem Blank.ends (h : Blank gap) (hne : gap ≠ []) (rest : Bytes) : Ends (gap ++ rest) := by
  cases gap with
  | nil => exact absurd rfl hne
  | cons c gap =>
    have hall : ∀ b : UInt8, isBlank b = true → (isAlpha b || isDigit b) = false := by
      decide +kernel
    rintro d ⟨⟩
    exact hall c (h c mem_cons_self)

theorem nextWord_nil (hP : P []) (hgap : Blank gap)
    (hc : isAlpha c = false ∧ isBlank c = false ∧ c ≠ byte '/') (rest : Bytes) :
    NextWord P (gap ++ c :: rest) := by
  refine ⟨gap, [], c :: rest, hgap, hc.2, word_nil ?_, rfl, hP⟩
  rintro d ⟨⟩
  exact hc.1

theorem IsIdent.nextWord (hw : IsIdent w) (hP : P w) (hgap : Blank gap) (hrest : Ends rest) :
    NextWord P (gap ++ (w ++ rest)) :=
  ⟨gap, w, rest, hgap, hw.solid rest, hw.word hrest, rfl, hP⟩

theorem Literal.solid_print (l : Literal) (rest : Bytes) : Solid (l.print ++ rest) := by
  cases l with
  | text | hex => exact ⟨by decide, by decide⟩

theorem run_atSectionHeader_dollar (hgap : Blank gap) (before rest : Bytes) :
    atSectionHeader.run (between before (gap ++ byte '$' :: rest)) =
      .ok (false, between before (gap ++ byte '$' :: rest)) := by
  have hsolid : Solid (byte '$' :: rest) := ⟨by decide, by decide⟩
  have hword : Word [] (byte '$' :: rest) := by
    refine word_nil ?_
    rintro c ⟨⟩
    decide
  exact run_atSectionHeader hgap hsolid hword hsolid before

theorem stringsRound_reads (hgap : Blank gap) (d : Declaration) (r : Draft) :
    Reads AfterDeclaration (stringsRound r) (gap ++ d.print)
      (.inl { r with patterns := r.patterns ++ [d.pattern] }) := by
  intro before rest hrest
  have hheader : ∀ after, atSectionHeader.run (between before (gap ++ (d.id ++ after))) =
      .ok (false, between before (gap ++ (d.id ++ after))) :=
    fun after => run_atSectionHeader_dollar hgap before (d.name ++ after)
  have hdollar : ∀ after, Solid (d.id ++ after) := fun _ => ⟨by decide, by decide⟩
  have hhead : ∀ after, (d.id ++ after).head? = some (byte '$') := fun _ => rfl
  have hid : Reads Ends parseStringID d.id d.id := parseStringID_reads d.name_ident
  have hequals : ∀ after, Solid (byte '=' :: after) := fun _ => ⟨by decide, by decide⟩
  have hends : ∀ after, Ends ([byte ' '] ++ after) := fun after => blank_space.ends (by simp) after
  have hlength : d.pattern.bytes.length ≠ 0 := by
    rw [d.length_bytes_pattern]
    exact d.literal_ne
  have htext : gap ++ d.print ++ rest =
      gap ++ (d.id ++ ([byte ' '] ++ byte '=' :: ([byte ' '] ++ (d.literal.print ++ rest)))) := by
    simp [Declaration.print, Go.ascii, byte]
  rw [htext, stringsRound, run_bind_ok (hheader _)]
  show (skipSpace >>= _ : Parser (Draft ⊕ Draft)).run _ = _
  rw [run_bind_ok (skipSpace_reads hgap before _ (hdollar _)),
    run_bind_ok (run_peekChar (hhead _) _), if_neg (by decide), if_neg (by decide),
    run_bind_ok (hid _ _ (hends _)),
    run_bind_ok (skipSpace_reads blank_space _ _ (hequals _)),
    run_bind_ok (run_peekChar head?_cons _), if_neg (by decide),
    run_bind_ok (run_skip_one _ _ _),
    run_bind_ok (skipSpace_reads blank_space _ _ (d.literal.solid_print rest)),
    run_bind_ok (parsePattern_reads d _ rest hrest), if_neg hlength, run_pure]
  simp [Declaration.print, Go.ascii, byte]

def HeaderAhead (rest : Bytes) : Prop :=
  ∃ gap w after, gap ≠ [] ∧ Blank gap ∧ IsIdent w ∧ NoModifier w ∧
    rest = gap ++ (w ++ byte ':' :: after)

theorem ends_colon (after : Bytes) : Ends (byte ':' :: after) := by
  rintro c ⟨⟩
  decide

theorem HeaderAhead.afterDeclaration (h : HeaderAhead rest) : AfterDeclaration rest := by
  obtain ⟨gap, w, after, hne, hgap, hw, hmodifier, rfl⟩ := h
  exact ⟨hgap.ends hne _, hw.nextWord hmodifier hgap (ends_colon after)⟩

theorem HeaderAhead.run_atSectionHeader (h : HeaderAhead rest) (before : Bytes) :
    atSectionHeader.run (between before rest) = .ok (true, between before rest) := by
  obtain ⟨gap, w, after, -, hgap, hw, -, rfl⟩ := h
  have hne : w ≠ [] := by
    rintro rfl
    exact hw
  rw [Yara.run_atSectionHeader hgap (hw.solid _) (hw.word (ends_colon after))
    ⟨by decide, by decide⟩ before, decide_eq_true ⟨hne, rfl⟩]

theorem parseStrings_reads (strings : List Declaration) (r : Draft) :
    Reads HeaderAhead (parseStrings r) (strings.flatMap fun d => Go.ascii "\n    " ++ d.print)
      { r with patterns := r.patterns ++ strings.map Declaration.pattern } := by
  have hgap : Blank (Go.ascii "\n    ") := by simp [Blank, Go.ascii, isBlank, byte]
  induction strings generalizing r with
  | nil =>
    refine Reads.last fun before rest hrest => ?_
    rw [flatMap_nil, nil_append, stringsRound,
      run_bind_ok (hrest.run_atSectionHeader before), if_pos rfl, run_pure, map_nil,
      append_nil, append_nil]
  | cons d strings ih =>
    have hrest := ih { r with patterns := r.patterns ++ [d.pattern] }
    rw [append_assoc, singleton_append] at hrest
    rw [flatMap_cons, map_cons]
    refine (stringsRound_reads hgap d r).step (by simp [Go.ascii]) hrest fun rest hahead => ?_
    cases strings with
    | nil => exact hahead.afterDeclaration
    | cons =>
      rw [flatMap_cons, append_assoc, append_assoc]
      exact ⟨hgap.ends (by simp [Go.ascii]) _,
        nextWord_nil (by simp [NoModifier, Go.ascii]) hgap (by decide) _⟩

/-! ## Sources -/

theorem compile_of_run_ok {rules : List Rule} {c : Cursor UInt8}
    (h : (forever compileRound []).run { src := source } = .ok (rules, c)) :
    compile source = if rules.length = 0 then .error (.err (.errorf "yara: no rules found" []))
      else .ok { rules } := by
  have hrun : (forever compileRound []).run' { src := source } = .ok rules := by
    show Prod.fst <$> (forever compileRound []).run _ = _
    rw [h]
    rfl
  rw [compile, hrun]
  rfl

theorem compile_of_run_error {halt : Parsing.Halt Go.Error}
    (h : (forever compileRound []).run { src := source } = .error halt) :
    compile source = .error halt := by
  have hrun : (forever compileRound []).run' { src := source } = .error halt := by
    show Prod.fst <$> (forever compileRound []).run _ = _
    rw [h]
    rfl
  rw [compile, hrun]
  rfl

end ArgusEdr.Yara
