import Mathlib

/-!
# Tables with a primary key

A table is the list of its rows, oldest first, no two of which have the same key. `insert` refuses a row
whose key is taken, `update` rewrites the rows a condition selects and leaves their keys alone, `delete`
removes them; `find` is the selection by key. `all_ite_singleton` and `all_map_toList` say what a
condition that is only added under a guard contributes to a `WHERE` clause. In a `Numbered` table the key
counts the rows ever added.
-/

namespace ArgusEdr

open List

structure Table {κ α : Type*} (key : α → κ) where
  rows : List α
  nodup : (rows.map key).Nodup

namespace Table

variable {κ α : Type*} {key : α → κ}

def empty : Table key where
  rows := []
  nodup := by simp

/-- The number of rows that satisfy the condition of a statement. -/
def affected (t : Table key) (p : α → Bool) : ℕ := t.rows.countP p

def update (t : Table key) (p : α → Bool) (f : α → α) (hf : ∀ a, key (f a) = key a) :
    Table key where
  rows := t.rows.map fun a => if p a then f a else a
  nodup := by
    have hkey : (key ∘ fun a => if p a then f a else a) = key := by
      funext a
      simp only [Function.comp_apply]
      split
      · exact hf a
      · rfl
    rw [map_map, hkey]
    exact t.nodup

def delete (t : Table key) (p : α → Bool) : Table key where
  rows := t.rows.filter fun a => !p a
  nodup := t.nodup.sublist (filter_sublist.map key)

section
variable [DecidableEq κ]

def insert (t : Table key) (row : α) : Option (Table key) :=
  if h : key row ∈ t.rows.map key then none
  else some
    { rows := t.rows ++ [row]
      nodup := by
        rw [map_append, map_singleton, nodup_append]
        refine ⟨t.nodup, nodup_singleton _, ?_⟩
        rintro a ha b hb rfl
        rw [mem_singleton] at hb
        exact h (hb ▸ ha) }

def find (t : Table key) (k : κ) : Option α := t.rows.find? fun a => key a = k

theorem key_of_find {t : Table key} {k : κ} {a : α} (h : t.find k = some a) : key a = k := by
  simpa using find?_some h

theorem mem_of_find {t : Table key} {k : κ} {a : α} (h : t.find k = some a) : a ∈ t.rows :=
  mem_of_find?_eq_some h

theorem find_eq_none_iff (t : Table key) (k : κ) : t.find k = none ↔ k ∉ t.rows.map key := by
  simp [find, find?_eq_none]

theorem insert_eq_some_of_find_none {t : Table key} (row : α) (h : t.find (key row) = none) :
    ∃ t', t.insert row = some t' ∧ t'.rows = t.rows ++ [row] := by
  rw [find_eq_none_iff] at h
  exact ⟨_, dif_neg h, rfl⟩

theorem find_insert {t t' : Table key} {row : α} (h : t.insert row = some t') (k : κ) :
    t'.find k = if key row = k then some row else t.find k := by
  unfold insert at h
  split at h
  · cases h
  · next hfresh =>
    cases h
    rw [← find_eq_none_iff] at hfresh
    simp only [find, find?_append, find?_singleton, decide_eq_true_eq]
    split_ifs with hk
    · subst hk
      unfold find at hfresh
      rw [hfresh]
      rfl
    · simp

theorem find_update (t : Table key) (p : α → Bool) (f : α → α) (hf : ∀ a, key (f a) = key a)
    (k : κ) :
    (t.update p f hf).find k = (t.find k).map fun a => if p a then f a else a := by
  simp only [find, update, find?_map]
  congr 1
  refine find?_congr fun a _ => ?_
  simp only [Function.comp_apply]
  split
  · rw [hf a]
  · rfl

/-- An update whose condition pins the key rewrites the row of that key, if the row satisfies
the rest of the condition, and no other. -/
theorem find_update_key (t : Table key) (k₀ : κ) (q : α → Bool) (f : α → α)
    (hf : ∀ a, key (f a) = key a) (k : κ) :
    (t.update (fun a => decide (key a = k₀) && q a) f hf).find k =
      if k₀ = k then (t.find k).map fun a => if q a then f a else a else t.find k := by
  rw [find_update]
  cases hfind : t.find k with
  | none => split_ifs <;> rfl
  | some =>
    have hkey := key_of_find hfind
    split_ifs with hk
    · simp [hkey, hk]
    · simp [hkey, Ne.symm hk]

theorem find_eq_some_iff (t : Table key) (k : κ) (a : α) :
    t.find k = some a ↔ a ∈ t.rows ∧ key a = k := by
  constructor
  · intro h
    exact ⟨mem_of_find h, key_of_find h⟩
  · rintro ⟨hmem, hkey⟩
    cases hfind : t.find k with
    | none =>
      rw [find_eq_none_iff] at hfind
      exact absurd (mem_map.mpr ⟨a, hmem, hkey⟩) hfind
    | some =>
      -- keys are distinct, so this is the row of the key
      rw [inj_on_of_nodup_map t.nodup hmem (mem_of_find hfind)
        (hkey.trans (key_of_find hfind).symm)]

/-- A statement whose condition pins the key touches a row exactly if the row of that key
satisfies the rest of the condition. -/
theorem affected_key_pos_iff (t : Table key) (k : κ) (q : α → Bool) :
    0 < t.affected (fun a => decide (key a = k) && q a) ↔ (t.find k).any q = true := by
  simp only [affected, countP_pos_iff, Bool.and_eq_true, decide_eq_true_eq,
    Option.any_eq_true]
  constructor
  · rintro ⟨a, hmem, hkey, hq⟩
    exact ⟨a, (find_eq_some_iff t k a).mpr ⟨hmem, hkey⟩, hq⟩
  · rintro ⟨a, hfind, hq⟩
    exact ⟨a, mem_of_find hfind, key_of_find hfind, hq⟩

end

/-! ## Conditions under a guard -/

section
variable {β γ : Type*} (p : β → Bool)

theorem all_ite_singleton (c : Prop) [Decidable c] (b : β) :
    (if c then [b] else []).all p = (!decide c || p b) := by
  split_ifs with hc <;> simp [hc]

theorem all_map_toList (value : Option γ) (f : γ → β) :
    (value.toList.map f).all p = value.all fun v => p (f v) := by
  cases value <;> simp

end

end Table

/-! ## Keys that count -/

/-- The rows of a table that numbers them as they come: `last` is the number of rows ever
added. -/
structure Numbered {α : Type*} (number : α → ℕ) where
  rows : List α := []
  last : ℕ := 0
  increasing : rows.Pairwise fun a b => number a < number b := by simp
  number_le : ∀ a ∈ rows, number a ≤ last := by simp

namespace Numbered

variable {α : Type*} {number : α → ℕ}

/-- Adds the row `row n` under the next number `n`. -/
def add (t : Numbered number) (row : ℕ → α) (hrow : ∀ n, number (row n) = n) : Numbered number where
  rows := t.rows ++ [row (t.last + 1)]
  last := t.last + 1
  increasing := by
    refine pairwise_append.mpr ⟨t.increasing, pairwise_singleton _ _, ?_⟩
    intro a ha b hb
    rw [mem_singleton] at hb
    rw [hb, hrow]
    exact Nat.lt_succ_of_le (t.number_le a ha)
  number_le := by
    intro a ha
    rcases mem_append.mp ha with ha | ha
    · exact (t.number_le a ha).trans (Nat.le_succ _)
    · rw [mem_singleton] at ha
      rw [ha, hrow]

def delete (t : Numbered number) (p : α → Bool) : Numbered number where
  rows := t.rows.filter fun a => !p a
  last := t.last
  increasing := t.increasing.filter _
  number_le := fun a ha => t.number_le a (mem_of_mem_filter ha)

end Numbered
end ArgusEdr
