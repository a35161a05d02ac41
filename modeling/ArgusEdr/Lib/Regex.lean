import ArgusEdr.Lib.Like

/-!
# Regular expressions without groups

Letters, escaped punctuation, `.`, `.*` and the anchors `^` and `$`. `parse` reads them, and `search` is
what they mean: some part of the text matches, where `.` is any letter but a line break. A wildcard
pattern is a regular expression between two anchors (`items`), which matches the same texts as long as
there is no line break in them (`run_items_of_accepts`).
-/

namespace ArgusEdr.Regex

open List

open Like (Piece accepts)

inductive Item where
  | lit (c : Char)
  | dot
  | dotStar
  | bot
  | eot
deriving Repr, DecidableEq

/-- The letters that mean something else than themselves. -/
def special (c : Char) : Bool := c ∈ "\\.+*?()|[]\x7b\x7d^$".toList

/-- The letters a backslash may stand before to make them mean themselves. -/
def punctuation (c : Char) : Bool := c.toNat < 128 && !c.isAlphanum

def parse : List Char → Option (List Item)
  | [] => some []
  | '.' :: '*' :: cs => (parse cs).map (.dotStar :: ·)
  | '\\' :: c :: cs => if punctuation c then (parse cs).map (.lit c :: ·) else none
  | c :: cs =>
    if c = '.' then (parse cs).map (.dot :: ·)
    else if c = '^' then (parse cs).map (.bot :: ·)
    else if c = '$' then (parse cs).map (.eot :: ·)
    else if special c then none
    else (parse cs).map (.lit c :: ·)

/-- Whether the items match at the front of what is left of a text, of which something has been
left behind or nothing has. -/
def run : List Item → (atStart : Bool) → List Char → Bool
  | [], _, _ => true
  | .lit c :: is, _, d :: text => c == d && run is false text
  | .lit _ :: _, _, [] => false
  | .dot :: is, _, d :: text => d != '\n' && run is false text
  | .dot :: _, _, [] => false
  | .dotStar :: is, atStart, text =>
    (List.range ((text.takeWhile (· != '\n')).length + 1)).any fun n =>
      run is (atStart && n == 0) (text.drop n)
  | .bot :: is, atStart, text => atStart && run is atStart text
  | .eot :: is, atStart, text => text.isEmpty && run is atStart text

def search (is : List Item) (text : List Char) : Bool :=
  (List.range (text.length + 1)).any fun n => run is (n == 0) (text.drop n)

example : (parse "^a.*b$".toList).map (search · "a\nb".toList) = some false ∧
    (parse "^a.*b$".toList).map (search · "axyb".toList) = some true := by
  decide

/-! ## Parsing -/

theorem parse_dotStar (cs : List Char) :
    parse ('.' :: '*' :: cs) = (parse cs).map (.dotStar :: ·) := rfl

theorem parse_escaped {c : Char} (hc : punctuation c = true) (cs : List Char) :
    parse ('\\' :: c :: cs) = (parse cs).map (.lit c :: ·) := by
  rw [parse, if_pos hc]

theorem parse_dot {cs : List Char} (hcs : cs.head? ≠ some '*') :
    parse ('.' :: cs) = (parse cs).map (.dot :: ·) := by
  rw [parse]
  · rfl
  · rintro cs' - rfl
    exact hcs rfl
  · rintro c cs' hc -
    exact absurd hc (by decide)

theorem parse_lit {c : Char} (hc : special c = false) (cs : List Char) :
    parse (c :: cs) = (parse cs).map (.lit c :: ·) := by
  have hne : ∀ d, special d = true → c ≠ d := by
    rintro _ hd rfl
    rw [hc] at hd
    cases hd
  rw [parse, if_neg (hne _ (by decide)), if_neg (hne _ (by decide)), if_neg (hne _ (by decide)),
    hc]
  · rfl
  · rintro cs' h -
    exact hne _ (by decide) h
  · rintro d cs' h -
    exact hne _ (by decide) h

/-! ## Running -/

section
variable {is : List Item} {atStart : Bool} {text : List Char}

theorem run_dotStar_iff : run (.dotStar :: is) atStart text = true ↔
    ∃ skipped rest, text = skipped ++ rest ∧ '\n' ∉ skipped ∧
      run is (atStart && skipped.isEmpty) rest = true := by
  rw [run, any_eq_true]
  constructor
  · rintro ⟨n, hn, hrun⟩
    rw [mem_range, Nat.lt_succ_iff] at hn
    refine ⟨text.take n, text.drop n, (take_append_drop n text).symm, ?_, ?_⟩
    · have hpart : text.take n <+: text.takeWhile (· != '\n') :=
        prefix_of_prefix_length_le (List.take_prefix n text) (List.takeWhile_prefix _)
          ((length_take_le n text).trans hn)
      intro hmem
      have hline := mem_takeWhile_imp (hpart.subset hmem)
      exact absurd hline (by decide)
    · have hempty : (text.take n).isEmpty = (n == 0) := by
        have hlen : n ≤ text.length := hn.trans (List.takeWhile_prefix _).length_le
        cases n with
        | zero => rfl
        | succ =>
          cases text with
          | nil => cases hlen
          | cons => rfl
      rw [hempty]
      exact hrun
  · rintro ⟨skipped, rest, rfl, hline, hrun⟩
    have hskipped : ∀ c ∈ skipped, (c != '\n') = true := by
      intro c hc
      rw [bne_iff_ne]
      rintro rfl
      exact hline hc
    refine ⟨skipped.length, ?_, ?_⟩
    · rw [mem_range, Nat.lt_succ_iff, takeWhile_append_of_pos hskipped,
        length_append]
      exact Nat.le_add_right ..
    · have hempty : skipped.isEmpty = (skipped.length == 0) := by
        cases skipped with
        | nil | cons => rfl
      rw [drop_left, ← hempty]
      exact hrun

theorem search_bot : search (.bot :: is) text = run is true text := by
  rw [search, Bool.eq_iff_iff, any_eq_true]
  constructor
  · rintro ⟨n, -, hrun⟩
    rw [run, Bool.and_eq_true, beq_iff_eq] at hrun
    obtain ⟨rfl, hrun⟩ := hrun
    exact hrun
  · intro hrun
    exact ⟨0, by simp, hrun⟩

end

/-! ## Wildcard patterns -/

def item : Piece Char → Item
  | .any => .dotStar
  | .one => .dot
  | .lit c => .lit c

/-- A pattern, up to the end of the text. -/
def items (ps : List (Piece Char)) : List Item := ps.map item ++ [.eot]

section
variable {ps : List (Piece Char)} {atStart : Bool} {text : List Char}

theorem accepts_of_run_items (h : run (items ps) atStart text = true) :
    accepts (· == ·) ps text = true := by
  induction ps generalizing atStart text with
  | nil =>
    rw [items, map_nil, nil_append, run, Bool.and_eq_true] at h
    exact h.1
  | cons p ps ih =>
    cases p with
    | any =>
      obtain ⟨skipped, rest, rfl, -, hrest⟩ := run_dotStar_iff.mp h
      exact Like.any_iff.mpr ⟨skipped, rest, rfl, ih hrest⟩
    | one =>
      cases text with
      | nil => cases h
      | cons =>
        obtain ⟨-, h⟩ := Bool.and_eq_true_iff.mp h
        exact ih h
    | lit =>
      cases text with
      | nil => cases h
      | cons =>
        obtain ⟨hc, h⟩ := Bool.and_eq_true_iff.mp h
        rw [accepts, hc, ih h]
        rfl

theorem run_items_of_accepts (hline : '\n' ∉ text) (h : accepts (· == ·) ps text = true) :
    run (items ps) atStart text = true := by
  induction ps generalizing atStart text with
  | nil =>
    rw [items, map_nil, nil_append, run, show text.isEmpty = true from h]
    rfl
  | cons p ps ih =>
    cases p with
    | any =>
      obtain ⟨skipped, rest, rfl, hrest⟩ := Like.any_iff.mp h
      rw [mem_append, not_or] at hline
      exact run_dotStar_iff.mpr ⟨skipped, rest, rfl, hline.1, ih hline.2 hrest⟩
    | one =>
      cases text with
      | nil => cases h
      | cons c text =>
        rw [mem_cons, not_or] at hline
        have hc : (c != '\n') = true := bne_iff_ne.mpr (Ne.symm hline.1)
        exact Bool.and_eq_true_iff.mpr ⟨hc, ih hline.2 h⟩
    | lit =>
      cases text with
      | nil => cases h
      | cons =>
        rw [accepts, Bool.and_eq_true] at h
        rw [mem_cons, not_or] at hline
        exact Bool.and_eq_true_iff.mpr ⟨h.1, ih hline.2 h.2⟩

theorem count_of_run_items (h : run (items ps) atStart text = true) :
    text.count '\n' = ps.count (.lit '\n') := by
  induction ps generalizing atStart text with
  | nil =>
    have htext := accepts_of_run_items h
    rw [accepts, List.isEmpty_iff] at htext
    rw [htext]
    rfl
  | cons p ps ih =>
    cases p with
    | any =>
      obtain ⟨skipped, rest, rfl, hline, hrest⟩ := run_dotStar_iff.mp h
      rw [count_append, count_eq_zero_of_not_mem hline, Nat.zero_add, ih hrest,
        count_cons_of_ne (by simp)]
    | one =>
      cases text with
      | nil => cases h
      | cons =>
        obtain ⟨hc, h⟩ := Bool.and_eq_true_iff.mp h
        rw [count_cons_of_ne (bne_iff_ne.mp hc), ih h, count_cons_of_ne (by simp)]
    | lit =>
      cases text with
      | nil => cases h
      | cons =>
        obtain ⟨hc, hrest⟩ := Bool.and_eq_true_iff.mp h
        rw [← beq_iff_eq.mp hc, count_cons, count_cons, ih hrest]
        simp

end

end ArgusEdr.Regex
