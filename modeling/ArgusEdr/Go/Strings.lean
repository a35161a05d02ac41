import ArgusEdr.Go.Text

/-!
# Cutting texts apart (`strings`) and writing bytes down (`encoding/hex`)

The functions of `strings` that the Sigma importer reads rules with. `words_append` is how a text
falls into its fields. `hexString` is the form in which the program keeps its digests.
-/

namespace ArgusEdr.Go

open List

/-- `strings.ReplaceAll(s, old, new)`, for an `old` of one character. -/
def replaceAll (s : String) (old : Char) (new : String) : String :=
  String.ofList (s.toList.flatMap fun c => if c = old then new.toList else [c])

/-- The runs of characters that are no white space. -/
def words (cs : List Char) : List (List Char) := (cs.splitOnP isSpace).filter (· ≠ [])

def fields (s : String) : List String := (words s.toList).map String.ofList

/-- `strings.Split(s, sep)`, for a `sep` of one character. -/
def split (s : String) (sep : Char) : List String := (s.toList.splitOn sep).map String.ofList

/-- `strings.CutSuffix`: the rest of `s` before `ending`, if `s` ends with it. -/
def cutSuffix (s ending : String) : Option String :=
  if hasSuffix s ending then
    some (String.ofList (s.toList.take (s.toList.length - ending.toList.length)))
  else none

/-- `strings.Trim(s, cutset)`, for a `cutset` of one character. -/
def trim (s : String) (c : Char) : String :=
  String.ofList ((s.toList.dropWhile (· == c)).reverse.dropWhile (· == c)).reverse

def containsAny (s chars : String) : Bool := s.toList.any fun c => c ∈ chars.toList

def trimStart (s start : String) : String := (cutPrefix s start).getD s

def toUpper (upper : Char → Char) (s : String) : String := String.ofList (s.toList.map upper)

example : fields " a  or\t(b) " = ["a", "or", "(b)"] ∧ split "Image|endswith" '|' = ["Image", "endswith"] ∧
    trim "*sh*" '*' = "sh" ∧ cutSuffix "sel*" "*" = some "sel" := by
  decide

theorem toList_replaceAll (s : String) (old : Char) (new : String) :
    (replaceAll s old new).toList = s.toList.flatMap fun c => if c = old then new.toList else [c] :=
  String.toList_ofList

theorem words_cons {c : Char} (hc : isSpace c = true) (cs : List Char) :
    words (c :: cs) = words cs := by
  rw [words, splitOnP_cons_eq_if_modifyHead, if_pos hc, filter_cons_of_neg (by simp)]
  rfl

theorem words_blank_append {gap : List Char} (hgap : ∀ c ∈ gap, isSpace c = true)
    (cs : List Char) : words (gap ++ cs) = words cs := by
  induction gap with
  | nil => rfl
  | cons c gap ih =>
    obtain ⟨hc, hgap'⟩ := forall_mem_cons.mp hgap
    rw [cons_append, words_cons hc, ih hgap']

theorem words_append {w cs : List Char} (hne : w ≠ []) (hw : ∀ c ∈ w, isSpace c = false)
    (hcs : ∀ c ∈ cs.head?, isSpace c = true) : words (w ++ cs) = w :: words cs := by
  have hkept : ∀ l : List (List Char), (w :: l).filter (· ≠ []) = w :: l.filter (· ≠ []) :=
    fun l => filter_cons_of_pos (decide_eq_true hne)
  cases cs with
  | nil =>
    rw [append_nil, words, splitOnP_eq_singleton hw, hkept]
    rfl
  | cons c cs =>
    have hc : isSpace c = true := hcs c rfl
    rw [words_cons hc, words, splitOnP_append_cons_of_forall_mem hw c hc, hkept]
    rfl

/-! ## Hexadecimal -/

def hexString (bytes : Bytes) : String :=
  String.ofList (bytes.flatMap fun b => [(b.toNat / 16).digitChar, (b.toNat % 16).digitChar])

theorem digitChar_inj {m n : ℕ} (hm : m < 16) (hn : n < 16) (h : m.digitChar = n.digitChar) :
    m = n := by
  have hall : ∀ i j : Fin 16, i.1.digitChar = j.1.digitChar → i = j := by decide
  exact Fin.mk.inj_iff.mp (hall ⟨m, hm⟩ ⟨n, hn⟩ h)

theorem hexString_injective : Function.Injective hexString := by
  intro xs ys h
  have hchars := String.ofList_injective h
  clear h
  induction xs generalizing ys with
  | nil =>
    cases ys with
    | nil => rfl
    | cons => simp at hchars
  | cons x xs ih =>
    cases ys with
    | nil => simp at hchars
    | cons y ys =>
      simp only [flatMap_cons, cons_append, nil_append, List.cons.injEq] at hchars
      obtain ⟨hhigh, hlow, hrest⟩ := hchars
      have hx := x.toNat_lt
      have hy := y.toNat_lt
      have hdiv := digitChar_inj (by omega) (by omega) hhigh
      have hmod := digitChar_inj (by omega) (by omega) hlow
      have hxy : x.toNat = y.toNat := by omega
      rw [UInt8.toNat_inj.mp hxy, ih hrest]

theorem exists_digit_of_mem_hexString {bytes : Bytes} {c : Char}
    (hc : c ∈ (hexString bytes).toList) : ∃ n < 16, c = Nat.digitChar n := by
  rw [hexString, String.toList_ofList, mem_flatMap] at hc
  obtain ⟨b, -, hc⟩ := hc
  have hb := b.toNat_lt
  rw [mem_pair] at hc
  cases hc with
  | inl hc => exact ⟨b.toNat / 16, by omega, hc⟩
  | inr hc => exact ⟨b.toNat % 16, by omega, hc⟩

/-! ## Bytes of texts -/

theorem utf8_injective : Function.Injective utf8 := by
  intro s t h
  exact String.toByteArray_inj.mp (ByteArray.ext (Array.toList_inj.mp h))

theorem utf8_ofList (cs : List Char) :
    utf8 (String.ofList cs) = cs.flatMap String.utf8EncodeChar := by
  rw [utf8, String.toUTF8, String.toByteArray_ofList, List.utf8Encode]
  simp

theorem utf8_eq_ascii {s : String} (h : ∀ c ∈ s.toList, c.toNat < 128) : utf8 s = ascii s := by
  have hchar : ∀ c ∈ s.toList, String.utf8EncodeChar c = [UInt8.ofNat c.toNat] := by
    intro c hc
    have hle : c.val.toNat ≤ 127 := Nat.lt_succ_iff.mp (h c hc)
    exact if_pos hle
  rw [← String.ofList_toList (s := s), utf8_ofList, String.ofList_toList, ascii,
    flatMap_congr hchar, map_eq_flatMap]

end ArgusEdr.Go
