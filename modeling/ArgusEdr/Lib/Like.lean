import Mathlib

/-!
# Wildcard patterns

A pattern is a list of pieces: `any` stands for any text, `one` for any one letter, and a literal for
the letters `same` takes for it. Between two `any`s a pattern searches for a part of the text
(`any_between_iff`). A pattern read off a text accepts that text (`pieces_self`), and nothing else if no
letter was read as a wildcard (`literals_iff`).
-/

namespace ArgusEdr.Like

open List

variable {α : Type*}

inductive Piece (α : Type*) where
  | any
  | one
  | lit (a : α)
deriving Repr, DecidableEq

variable (same : α → α → Bool)

def accepts : List (Piece α) → List α → Bool
  | [], text => text.isEmpty
  | .any :: ps, text => text.tails.any (accepts ps)
  | .one :: ps, _ :: text => accepts ps text
  | .lit a :: ps, c :: text => same a c && accepts ps text
  | .one :: _, [] => false
  | .lit _ :: _, [] => false

variable {same} {ps qs : List (Piece α)} {text : List α}

theorem any_iff : accepts same (.any :: ps) text = true ↔ ∃ skipped rest, text = skipped ++ rest ∧
    accepts same ps rest = true := by
  simp only [accepts, any_eq_true, mem_tails]
  constructor
  · rintro ⟨rest, ⟨skipped, rfl⟩, h⟩
    exact ⟨skipped, rest, rfl, h⟩
  · rintro ⟨skipped, rest, rfl, h⟩
    exact ⟨rest, ⟨skipped, rfl⟩, h⟩

theorem parts_iff : accepts same (ps ++ qs) text = true ↔ ∃ front back, text = front ++ back ∧
    accepts same ps front = true ∧ accepts same qs back = true := by
  induction ps generalizing text with
  | nil =>
    constructor
    · intro h
      exact ⟨[], text, rfl, rfl, h⟩
    · rintro ⟨front, back, rfl, hfront, hback⟩
      rw [accepts, List.isEmpty_iff] at hfront
      rw [hfront]
      exact hback
  | cons p ps ih =>
    cases p with
    | any =>
      rw [cons_append, any_iff]
      constructor
      · rintro ⟨skipped, rest, rfl, h⟩
        obtain ⟨front, back, rfl, hfront, hback⟩ := ih.mp h
        exact ⟨skipped ++ front, back, (append_assoc ..).symm,
          any_iff.mpr ⟨skipped, front, rfl, hfront⟩, hback⟩
      · rintro ⟨front, back, rfl, hfront, hback⟩
        obtain ⟨skipped, rest, rfl, hrest⟩ := any_iff.mp hfront
        exact ⟨skipped, rest ++ back, append_assoc .., ih.mpr ⟨rest, back, rfl, hrest, hback⟩⟩
    | one =>
      cases text with
      | nil => simp [accepts]
      | cons c text =>
        rw [cons_append, accepts, ih]
        constructor
        · rintro ⟨front, back, rfl, hfront, hback⟩
          exact ⟨c :: front, back, rfl, hfront, hback⟩
        · rintro ⟨front, back, heq, hfront, hback⟩
          cases front with
          | nil => cases hfront
          | cons d front =>
            obtain ⟨rfl, rfl⟩ := List.cons.inj heq
            exact ⟨front, back, rfl, hfront, hback⟩
    | lit =>
      cases text with
      | nil => simp [accepts]
      | cons c text =>
        rw [cons_append, accepts, Bool.and_eq_true, ih]
        constructor
        · rintro ⟨hsame, front, back, rfl, hfront, hback⟩
          exact ⟨c :: front, back, rfl, by rw [accepts, hsame, hfront]; rfl, hback⟩
        · rintro ⟨front, back, heq, hfront, hback⟩
          cases front with
          | nil => cases hfront
          | cons d front =>
            obtain ⟨rfl, rfl⟩ := List.cons.inj heq
            rw [accepts, Bool.and_eq_true] at hfront
            exact ⟨hfront.1, front, back, rfl, hfront.2, hback⟩

theorem matches_any : accepts same [.any] text = true :=
  any_iff.mpr ⟨text, [], (append_nil _).symm, rfl⟩

theorem anys_append_iff (k : ℕ) : accepts same (List.replicate (k + 1) .any ++ ps) text = true ↔
    accepts same (.any :: ps) text = true := by
  induction k generalizing text with
  | zero => exact Iff.rfl
  | succ k ih =>
    rw [replicate_succ, cons_append, any_iff]
    constructor
    · rintro ⟨skipped, rest, rfl, h⟩
      obtain ⟨skipped', rest', rfl, hrest⟩ := any_iff.mp (ih.mp h)
      exact any_iff.mpr ⟨skipped ++ skipped', rest', (append_assoc ..).symm, hrest⟩
    · intro h
      exact ⟨[], text, rfl, ih.mpr h⟩

theorem append_anys_iff (k : ℕ) : accepts same (ps ++ List.replicate (k + 1) .any) text = true ↔
    accepts same (ps ++ [.any]) text = true := by
  have hanys : ∀ back, accepts same (List.replicate (k + 1) .any) back = true := by
    intro back
    rw [← append_nil (List.replicate (k + 1) Piece.any), anys_append_iff]
    exact matches_any
  simp only [parts_iff, hanys, matches_any]

theorem any_between_iff : accepts same (.any :: (ps ++ [.any])) text = true ↔
    ∃ part, part <:+: text ∧ accepts same ps part = true := by
  rw [any_iff]
  constructor
  · rintro ⟨skipped, rest, rfl, h⟩
    obtain ⟨part, back, rfl, hpart, -⟩ := parts_iff.mp h
    exact ⟨part, ⟨skipped, back, append_assoc ..⟩, hpart⟩
  · rintro ⟨part, ⟨skipped, back, rfl⟩, hpart⟩
    exact ⟨skipped, part ++ back, append_assoc ..,
      parts_iff.mpr ⟨part, back, rfl, hpart, matches_any⟩⟩

theorem accepts_congr {same' : α → α → Bool}
    (h : ∀ a c, .lit a ∈ ps → c ∈ text → same a c = same' a c) :
    accepts same ps text = accepts same' ps text := by
  induction ps generalizing text with
  | nil => rfl
  | cons p ps ih =>
    have htail : ∀ rest, (∀ c ∈ rest, c ∈ text) → accepts same ps rest = accepts same' ps rest :=
      fun rest hrest => ih fun a c ha hc => h a c (mem_cons_of_mem p ha) (hrest c hc)
    cases p with
    | any =>
      rw [accepts, accepts, Bool.eq_iff_iff, any_eq_true, any_eq_true]
      refine exists_congr fun rest => and_congr_right fun hrest => ?_
      rw [htail rest fun c hc => ((mem_tails rest text).mp hrest).subset hc]
    | one =>
      cases text with
      | nil => rfl
      | cons c text => exact htail text fun d hd => mem_cons_of_mem c hd
    | lit a =>
      cases text with
      | nil => rfl
      | cons c text =>
        rw [accepts, accepts, h a c mem_cons_self mem_cons_self,
          htail text fun d hd => mem_cons_of_mem c hd]

/-! ## Patterns read from a text -/

variable (read : α → Piece α)

theorem pieces_self (hread : ∀ a, read a = .any ∨ read a = .one ∨ read a = .lit a)
    (hrefl : ∀ a, same a a = true) (word : List α) :
    accepts same (word.map read) word = true := by
  induction word with
  | nil => rfl
  | cons a word ih =>
    rw [map_cons]
    rcases hread a with h | h | h
    · rw [h]
      exact any_iff.mpr ⟨[a], word, rfl, ih⟩
    · rw [h]
      exact ih
    · rw [h, accepts, hrefl a, ih]
      rfl

/-- Without wildcards, a pattern matches the texts that are the same letter by letter. -/
theorem literals_iff {word : List α} (hread : ∀ a ∈ word, read a = .lit a) :
    accepts same (word.map read) text = true ↔
      List.Forall₂ (fun a c => same a c = true) word text := by
  induction word generalizing text with
  | nil =>
    rw [List.map_nil, accepts, List.isEmpty_iff, List.forall₂_nil_left_iff]
  | cons a word ih =>
    rw [map_cons, hread a mem_cons_self]
    cases text with
    | nil => simp [accepts]
    | cons =>
      rw [accepts, Bool.and_eq_true, forall₂_cons,
        ih fun b hb => hread b (mem_cons_of_mem a hb)]

end ArgusEdr.Like
