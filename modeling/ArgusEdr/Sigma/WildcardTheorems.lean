import ArgusEdr.Lib.Regex
import ArgusEdr.Sigma.Detection

/-!
# Wildcards of Sigma values

`glob` is what a Sigma value says of a text: `*` is any sequence of characters, `?` any one
character, and every other character is itself. `inferStringOp` takes stars at the ends of a value
for a search and makes a regular expression of the others. The searches mean what the wildcards
mean; the regular expression does on a text without a line break, which `.` never matches.
-/

namespace ArgusEdr.Sigma

open List

open Detect (Value Predicate compileLeaf)
open Go (Library trim)
open Like (accepts)
open Model (Event)

/-- How a character of a value is read. -/
def globPiece (c : Char) : Like.Piece Char :=
  if c = '*' then .any else if c = '?' then .one else .lit c

/-- Whether a text matches a value as a whole. -/
def glob (value text : String) : Bool :=
  accepts (· == ·) (value.toList.map globPiece) text.toList

/-- Wildcards that are not stars at an end of the value. -/
def HasInnerWildcard (value : String) : Prop := Go.containsAny (trim value '*') "*?" = true

/-! ## Stars at the ends -/

section
variable {c : Char}

theorem exists_replicate_dropWhile (cs : List Char) :
    ∃ k, cs = List.replicate k c ++ cs.dropWhile (· == c) := by
  refine ⟨(cs.takeWhile (· == c)).length, ?_⟩
  have hstars : cs.takeWhile (· == c) = List.replicate (cs.takeWhile (· == c)).length c := by
    refine eq_replicate_iff.mpr ⟨rfl, fun d hd => ?_⟩
    have hd' : (d == c) = true := mem_takeWhile_imp (p := (· == c)) hd
    exact beq_iff_eq.mp hd'
  rw [← hstars, takeWhile_append_dropWhile]

theorem head?_dropWhile_ne (cs : List Char) : (cs.dropWhile (· == c)).head? ≠ some c := by
  intro h
  have hnot := head?_dropWhile_not (· == c) cs
  rw [h] at hnot
  simp at hnot

/-- A value is its core between the characters that are trimmed, which all count as leading if
there is no core. -/
theorem exists_trim (s : String) (c : Char) :
    ∃ k m, s.toList = List.replicate k c ++ ((trim s c).toList ++ List.replicate m c) ∧
      (trim s c).toList.head? ≠ some c ∧ (trim s c).toList.getLast? ≠ some c ∧
      ((trim s c).toList = [] → m = 0) := by
  obtain ⟨k, hk⟩ := exists_replicate_dropWhile (c := c) s.toList
  obtain ⟨m, hm⟩ := exists_replicate_dropWhile (c := c) (s.toList.dropWhile (· == c)).reverse
  rw [trim, String.toList_ofList]
  generalize hleft : s.toList.dropWhile (· == c) = left at hk hm
  have hhead : left.head? ≠ some c := hleft ▸ head?_dropWhile_ne s.toList
  have hlast := head?_dropWhile_ne (c := c) left.reverse
  generalize left.reverse.dropWhile (· == c) = core at hm hlast
  have hsplit : left = core.reverse ++ List.replicate m c := by
    rw [← reverse_reverse left, hm, reverse_append, reverse_replicate]
  refine ⟨k, m, by rw [hk, hsplit], ?_, ?_, ?_⟩
  · intro h
    rw [hsplit, head?_append, h] at hhead
    exact hhead rfl
  · rwa [getLast?_reverse]
  · intro hcore
    rw [hcore, nil_append] at hsplit
    cases m with
    | zero => rfl
    | succ =>
      rw [hsplit] at hhead
      exact absurd rfl hhead

end

/-! ## Searches -/

section
variable {word text : List Char}

theorem globPiece_star : globPiece '*' = .any := rfl

theorem globPiece_lit {c : Char} (h : c ∉ "*?".toList) : globPiece c = .lit c := by
  have hne : c ≠ '*' ∧ c ≠ '?' := by simpa using h
  rw [globPiece, if_neg hne.1, if_neg hne.2]

variable (hword : ∀ c ∈ word, c ∉ "*?".toList)
include hword

theorem accepts_word_iff : accepts (· == ·) (word.map globPiece) text = true ↔ text = word := by
  rw [Like.literals_iff globPiece fun c hc => globPiece_lit (hword c hc)]
  rw [eq_comm, ← forall₂_eq_eq_eq]
  simp only [beq_iff_eq]

theorem accepts_startsWith_iff :
    accepts (· == ·) (word.map globPiece ++ [.any]) text = true ↔ word <+: text := by
  rw [Like.parts_iff]
  constructor
  · rintro ⟨front, back, rfl, hfront, -⟩
    rw [(accepts_word_iff hword).mp hfront]
    exact prefix_append ..
  · rintro ⟨back, rfl⟩
    exact ⟨word, back, rfl, (accepts_word_iff hword).mpr rfl, Like.matches_any⟩

theorem accepts_endsWith_iff :
    accepts (· == ·) (.any :: word.map globPiece) text = true ↔ word <:+ text := by
  rw [Like.any_iff]
  constructor
  · rintro ⟨skipped, rest, rfl, hrest⟩
    rw [(accepts_word_iff hword).mp hrest]
    exact suffix_append ..
  · rintro ⟨skipped, rfl⟩
    exact ⟨skipped, word, rfl, (accepts_word_iff hword).mpr rfl⟩

theorem accepts_contains_iff :
    accepts (· == ·) (.any :: (word.map globPiece ++ [.any])) text = true ↔ word <:+: text := by
  rw [Like.any_between_iff]
  constructor
  · rintro ⟨part, hpart, haccepts⟩
    rwa [(accepts_word_iff hword).mp haccepts] at hpart
  · intro hinfix
    exact ⟨word, hinfix, (accepts_word_iff hword).mpr rfl⟩

end

/-! ## Regular expressions -/

/-- What `wildcardToRegex` writes for a character. -/
def escaped (c : Char) : List Char :=
  if c = '*' then ['.', '*']
  else if c = '?' then ['.']
  else if c ∈ "\\.+()|[]\x7b\x7d^$".toList then ['\\', c]
  else [c]

/-- A wildcard is written as what it means, any other character as itself, behind a backslash if
it is special. -/
theorem escaped_cases (c : Char) :
    c = '*' ∧ escaped c = ['.', '*'] ∨ c = '?' ∧ escaped c = ['.'] ∨
      globPiece c = .lit c ∧ Regex.punctuation c = true ∧ escaped c = ['\\', c] ∨
      globPiece c = .lit c ∧ Regex.special c = false ∧ escaped c = [c] := by
  have hpunctuation : ∀ d ∈ "\\.+()|[]\x7b\x7d^$".toList, Regex.punctuation d = true := by
    simp [Regex.punctuation, Char.isAlphanum]
  by_cases hstar : c = '*'
  · exact .inl ⟨hstar, if_pos hstar⟩
  by_cases hone : c = '?'
  · exact .inr (.inl ⟨hone, by rw [hone]; rfl⟩)
  have hpiece : globPiece c = .lit c := by rw [globPiece, if_neg hstar, if_neg hone]
  by_cases hmeta : c ∈ "\\.+()|[]\x7b\x7d^$".toList
  · refine .inr (.inr (.inl ⟨hpiece, hpunctuation c hmeta, ?_⟩))
    rw [escaped, if_neg hstar, if_neg hone, if_pos hmeta]
  · refine .inr (.inr (.inr ⟨hpiece, ?_, ?_⟩))
    · simpa [Regex.special, hstar, hone] using hmeta
    · rw [escaped, if_neg hstar, if_neg hone, if_neg hmeta]

theorem head?_escaped (cs : List Char) : (cs.flatMap escaped ++ ['$']).head? ≠ some '*' := by
  cases cs with
  | nil => decide
  | cons c cs =>
    rw [flatMap_cons]
    obtain ⟨-, h⟩ | ⟨-, h⟩ | ⟨-, -, h⟩ | ⟨hpiece, -, h⟩ := escaped_cases c
    · simp [h]
    · simp [h]
    · simp [h]
    · have hne : c ≠ '*' := by
        rintro rfl
        cases hpiece
      simpa [h] using hne

theorem parse_escaped (cs : List Char) :
    Regex.parse (cs.flatMap escaped ++ ['$']) = some (Regex.items (cs.map globPiece)) := by
  induction cs with
  | nil => rfl
  | cons c cs ih =>
    rw [flatMap_cons, append_assoc, map_cons]
    obtain ⟨rfl, h⟩ | ⟨rfl, h⟩ | ⟨hpiece, hpunctuation, h⟩ | ⟨hpiece, hplain, h⟩ := escaped_cases c
    · rw [h, cons_append, singleton_append, Regex.parse_dotStar, ih]
      rfl
    · rw [h, singleton_append, Regex.parse_dot (head?_escaped cs), ih]
      rfl
    · rw [h, hpiece, cons_append, singleton_append, Regex.parse_escaped hpunctuation, ih]
      rfl
    · rw [h, hpiece, singleton_append, Regex.parse_lit hplain, ih]
      rfl

theorem parse_wildcardToRegex (value : String) :
    Regex.parse (wildcardToRegex value).toList =
      some (.bot :: Regex.items (value.toList.map globPiece)) := by
  rw [wildcardToRegex, String.toList_ofList]
  have hparse := parse_escaped value.toList
  show (Regex.parse (value.toList.flatMap escaped ++ ['$'])).map _ = _
  rw [hparse]
  rfl

/-- Regular expressions are compiled and search as they are documented to. -/
def DocumentedRegexp [Library] : Prop :=
  ∀ (text : String) (is : List Regex.Item), Regex.parse text.toList = some is →
    ∃ test, Library.regexp text = .ok test ∧ ∀ s : String, test s = Regex.search is s.toList

/-- A text with a line break for every wildcard. -/
def brokenLine (value : String) : String :=
  String.ofList (value.toList.map fun c => if c ∈ "*?".toList then '\n' else c)

theorem glob_brokenLine (value : String) : glob value (brokenLine value) = true := by
  rw [glob, brokenLine, String.toList_ofList]
  induction value.toList with
  | nil => rfl
  | cons c cs ih =>
    rw [map_cons, map_cons]
    by_cases hc : c ∈ "*?".toList
    · rw [if_pos hc]
      have hwild : c = '*' ∨ c = '?' := by simpa using hc
      obtain rfl | rfl := hwild
      · exact Like.any_iff.mpr ⟨['\n'], _, rfl, ih⟩
      · exact ih
    · rw [if_neg hc, globPiece_lit hc, accepts, ih, beq_self_eq_true]
      rfl

theorem HasInnerWildcard.exists_mem {value : String} (h : HasInnerWildcard value) :
    ∃ c ∈ value.toList, c ∈ "*?".toList := by
  rw [HasInnerWildcard, Go.containsAny, any_eq_true] at h
  obtain ⟨c, hcore, hwild⟩ := h
  obtain ⟨k, m, hvalue, -⟩ := exists_trim value '*'
  refine ⟨c, ?_, of_decide_eq_true hwild⟩
  rw [hvalue]
  exact mem_append_right _ (mem_append_left _ hcore)

theorem count_brokenLine {value : String} (h : HasInnerWildcard value) :
    (value.toList.map globPiece).count (.lit '\n') < (brokenLine value).toList.count '\n' := by
  have hle : ∀ cs : List Char, (cs.map globPiece).count (.lit '\n') ≤
      (cs.map fun c => if c ∈ "*?".toList then '\n' else c).count '\n' := by
    intro cs
    induction cs with
    | nil => exact le_rfl
    | cons c cs ih =>
      rw [map_cons, map_cons, count_cons, count_cons]
      refine Nat.add_le_add ih ?_
      by_cases hc : c ∈ "*?".toList
      · rw [if_pos hc]
        split <;> simp
      · rw [if_neg hc, globPiece_lit hc]
        simp
  obtain ⟨c, hc, hwild⟩ := h.exists_mem
  obtain ⟨before, after, hvalue⟩ := append_of_mem hc
  have hpiece : globPiece c ≠ .lit '\n' := by
    have hcases : c = '*' ∨ c = '?' := by simpa using hwild
    obtain rfl | rfl := hcases <;> decide
  rw [brokenLine, String.toList_ofList, hvalue]
  simp only [map_append, map_cons, count_append]
  rw [count_cons_of_ne hpiece, if_pos hwild, count_cons_self]
  have hbefore := hle before
  have hafter := hle after
  omega

/-! ## The operator of a value -/

theorem startsWith_star (value : String) :
    Go.startsWith value "*" = true ↔ value.toList.head? = some '*' := by
  rw [Go.startsWith, isPrefixOf_iff_prefix]
  exact singleton_prefix_iff_head?_eq_some

theorem hasSuffix_star (value : String) :
    Go.hasSuffix value "*" = true ↔ value.toList.getLast? = some '*' := by
  rw [Go.hasSuffix, isSuffixOf_iff_suffix]
  exact singleton_suffix_iff_getLast?_eq_some

section
variable {value : String} {k m : ℕ}
  (hvalue : value.toList = List.replicate k '*' ++
    ((trim value '*').toList ++ List.replicate m '*'))
include hvalue

theorem startsWith_star_iff (hhead : (trim value '*').toList.head? ≠ some '*')
    (hempty : (trim value '*').toList = [] → m = 0) :
    Go.startsWith value "*" = true ↔ 0 < k := by
  rw [startsWith_star, hvalue]
  cases k with
  | zero =>
    cases hcore : (trim value '*').toList with
    | nil => simp [hempty hcore]
    | cons =>
      rw [hcore] at hhead
      simpa using hhead
  | succ => simp [replicate_succ]

theorem hasSuffix_star_iff (hlast : (trim value '*').toList.getLast? ≠ some '*') :
    Go.hasSuffix value "*" = true ↔ 0 < m ∨ (trim value '*').toList = [] ∧ 0 < k := by
  rw [hasSuffix_star, hvalue]
  cases m with
  | zero =>
    cases hcore : (trim value '*').toList with
    | nil =>
      cases k with
      | zero => simp
      | succ => simp [getLast?_replicate]
    | cons =>
      rw [hcore] at hlast
      simpa [getLast?_append, getLast?_cons] using hlast
  | succ => simp [getLast?_append, getLast?_replicate]

theorem glob_eq_accepts (s : String) :
    glob value s = accepts (· == ·) (List.replicate k .any ++
      ((trim value '*').toList.map globPiece ++ List.replicate m .any)) s.toList := by
  rw [glob, hvalue]
  simp only [map_append, map_replicate, globPiece_star]

end

theorem onString_of_field {field : String} {e : Event} {s : String} (h : e.field field = some (.str s))
    (test : String → Bool) : Detect.onString field test e = test s := by
  rw [Detect.onString, Detect.stringField, h]
  rfl

section
variable [Library] {field : String} (hfield : Model.knownField field = true)
include hfield

omit [Library] in
theorem ne_empty_of_knownField : field ≠ "" := by
  rintro rfl
  exact absurd hfield (by decide)

theorem compileLeaf_eq (value : String) :
    compileLeaf field "eq" (.str value) = .ok (Detect.equality field (.str value) false) := by
  have hne := ne_empty_of_knownField hfield
  simp [compileLeaf, hne, hfield]

theorem compileLeaf_string {op : String} (hop : op ∈ ["contains", "startswith", "endswith"])
    (value : String) :
    compileLeaf field op (.str value) = Detect.stringMatch field op (.str value) := by
  have hne := ne_empty_of_knownField hfield
  simp only [mem_cons, not_mem_nil, or_false] at hop
  rcases hop with rfl | rfl | rfl <;> simp [compileLeaf, hne, hfield]

theorem compileLeaf_regex (value : String) :
    compileLeaf field "regex" (.str value) = Detect.regexMatch field (.str value) := by
  have hne := ne_empty_of_knownField hfield
  simp [compileLeaf, hne, hfield]

/-- Without inner wildcards, the operator means what the stars at the ends mean. -/
theorem inferStringOp_search {value : String} (hinner : ¬HasInnerWildcard value) :
    ∃ p, compileLeaf field (inferStringOp value).1 (.str (inferStringOp value).2) = .ok p ∧
      ∀ (e : Event) (s : String), e.field field = some (.str s) → p e = glob value s := by
  obtain ⟨k, m, hvalue, hhead, hlast, hempty⟩ := exists_trim value '*'
  have hlead := startsWith_star_iff hvalue hhead hempty
  have htrail := hasSuffix_star_iff hvalue hlast
  have hglob := glob_eq_accepts hvalue
  have hword : ∀ c ∈ (trim value '*').toList, c ∉ "*?".toList := fun c hc hwild =>
    hinner (any_eq_true.mpr ⟨c, hc, decide_eq_true hwild⟩)
  simp only [inferStringOp, if_neg (show ¬Go.containsAny (trim value '*') "*?" = true from hinner)]
  split_ifs with hboth hfirst hsecond <;> dsimp only
  · -- stars at both ends, or nothing but stars
    rw [Bool.and_eq_true, hlead, htrail] at hboth
    refine ⟨_, compileLeaf_string hfield (by decide) _, fun e s hs => ?_⟩
    rw [onString_of_field hs, if_pos rfl, Bool.eq_iff_iff, hglob]
    obtain ⟨k, rfl⟩ : ∃ k', k = k' + 1 := ⟨k - 1, by omega⟩
    rw [Like.anys_append_iff]
    refine (Go.contains_iff s _).trans ?_
    obtain hm | ⟨hnil, -⟩ := hboth.2
    · obtain ⟨m, rfl⟩ : ∃ m', m = m' + 1 := ⟨m - 1, by omega⟩
      rw [← cons_append, Like.append_anys_iff, cons_append, accepts_contains_iff hword]
      rfl
    · rw [hempty hnil]
      show (trim value '*').toList <:+: s.toList ↔ _
      rw [hnil]
      exact iff_of_true (List.nil_infix) Like.matches_any
  · -- a star in front
    rw [Bool.and_eq_true, not_and] at hboth
    have hm : ¬0 < m := fun hm => hboth hfirst (htrail.mpr (.inl hm))
    rw [hlead] at hfirst
    refine ⟨_, compileLeaf_string hfield (by decide) _, fun e s hs => ?_⟩
    rw [onString_of_field hs, if_neg (by decide), if_neg (by decide), Bool.eq_iff_iff, hglob]
    obtain ⟨k, rfl⟩ : ∃ k', k = k' + 1 := ⟨k - 1, by omega⟩
    rw [Like.anys_append_iff, Nat.eq_zero_of_not_pos hm, replicate_zero, append_nil,
      accepts_endsWith_iff hword, Go.hasSuffix, isSuffixOf_iff_suffix]
    rfl
  · -- a star behind
    rw [hlead] at hfirst
    have hm : 0 < m := (htrail.mp hsecond).resolve_right fun h => hfirst h.2
    refine ⟨_, compileLeaf_string hfield (by decide) _, fun e s hs => ?_⟩
    rw [onString_of_field hs, if_neg (by decide), if_pos rfl, Bool.eq_iff_iff, hglob]
    obtain ⟨m, rfl⟩ : ∃ m', m = m' + 1 := ⟨m - 1, by omega⟩
    rw [Nat.eq_zero_of_not_pos hfirst, replicate_zero, nil_append, Like.append_anys_iff,
      accepts_startsWith_iff hword, Go.startsWith, isPrefixOf_iff_prefix]
    rfl
  · -- no stars
    rw [hlead] at hfirst
    have hm : ¬0 < m := fun hm => hsecond (htrail.mpr (.inl hm))
    refine ⟨_, compileLeaf_eq hfield _, fun e s hs => ?_⟩
    have hcore : value.toList = (trim value '*').toList := by
      rw [hvalue, Nat.eq_zero_of_not_pos hfirst, Nat.eq_zero_of_not_pos hm, replicate_zero,
        nil_append, append_nil]
    rw [← hcore] at hword
    rw [Detect.equality, hs, Bool.eq_iff_iff, glob, accepts_word_iff hword]
    show (decide (s = value) != false) = true ↔ _
    rw [Bool.bne_false, decide_eq_true_iff, String.toList_inj]

/-- With inner wildcards, the operator is a regular expression, which matches what the wildcards
match but for line breaks. -/
theorem inferStringOp_regex (hregexp : DocumentedRegexp) {value : String}
    (hinner : HasInnerWildcard value) :
    ∃ p, compileLeaf field (inferStringOp value).1 (.str (inferStringOp value).2) = .ok p ∧
      ∀ (e : Event) (s : String), e.field field = some (.str s) →
        p e = Regex.run (Regex.items (value.toList.map globPiece)) true s.toList := by
  obtain ⟨test, htest, hsearch⟩ := hregexp _ _ (parse_wildcardToRegex value)
  simp only [inferStringOp, if_pos (show Go.containsAny (trim value '*') "*?" = true from hinner)]
  refine ⟨Detect.onString field test, ?_, fun e s hs => ?_⟩
  · rw [compileLeaf_regex hfield]
    exact Detect.regexMatch_of_ok htest
  · rw [onString_of_field hs, hsearch, Regex.search_bot]

end

/-! ## A value with a star in the middle -/

/-- The plain library with the part of regular expressions that is modelled. -/
@[reducible] def documented : Library :=
  { Library.plain with
    regexp := fun text =>
      match Regex.parse text.toList with
      | none => .error (.errorf "error parsing regexp: %s" [text])
      | some is => .ok fun s => Regex.search is s.toList }

theorem documented_regexp : @DocumentedRegexp documented := by
  intro text is his
  refine ⟨fun s => Regex.search is s.toList, ?_, fun _ => rfl⟩
  show (match Regex.parse text.toList with
    | none => _
    | some is => _) = _
  rw [his]

def commandLine (line : String) : Event := { process := { commandLine := line } }

end ArgusEdr.Sigma
