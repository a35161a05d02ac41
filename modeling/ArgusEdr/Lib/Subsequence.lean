import Mathlib

/-!
# The first subsequence that passes a list of tests

A pattern over a sequence is a list of tests, found as a subsequence whose elements pass them one by one,
all within reach. `search` goes through the sequence once and takes the first element that passes each
test; `searchAll` does so from every element that passes a test of its own. It finds what there is
(`passes_of_search`), something if there is anything (`exists_search`), and the first of it (`First`).
-/

namespace ArgusEdr.Subsequence

open List

variable {α : Type*}

/-- The first element that passes each test, behind the one before. An element out of reach ends
the search. -/
def search (near : α → Bool) : List (α → Bool) → List α → Option (List α)
  | [], _ => some []
  | _ :: _, [] => none
  | t :: ts, x :: xs =>
    if !near x then none
    else if t x then (search near ts xs).map (x :: ·)
    else search near (t :: ts) xs

/-- A subsequence within reach that passes the tests. -/
structure Passes (near : α → Bool) (ts : List (α → Bool)) (xs picks : List α) : Prop where
  sublist : picks.Sublist xs
  tests : List.Forall₂ (fun t x => t x = true) ts picks
  near : ∀ x ∈ picks, near x = true

/-- The first elements that pass the tests. -/
inductive First : List (α → Bool) → List α → List α → Prop
  | nil (xs : List α) : First [] xs []
  | skip {t : α → Bool} {ts : List (α → Bool)} {x : α} {xs picks : List α} (hx : t x = false)
      (h : First (t :: ts) xs picks) : First (t :: ts) (x :: xs) picks
  | take {t : α → Bool} {ts : List (α → Bool)} {x : α} {xs picks : List α} (hx : t x = true)
      (h : First ts xs picks) : First (t :: ts) (x :: xs) (x :: picks)

section
variable {near : α → Bool} {ts : List (α → Bool)} {xs picks : List α}

theorem passes_of_search (h : search near ts xs = some picks) : Passes near ts xs picks := by
  fun_induction search near ts xs generalizing picks with
  | case1 xs =>
    cases h
    exact ⟨nil_sublist xs, .nil, by simp⟩
  | case2 | case3 => cases h
  | case4 t ts x xs hnear ht ih =>
    obtain ⟨rest, hrest, rfl⟩ := Option.map_eq_some_iff.mp h
    have hpasses := ih hrest
    rw [Bool.not_eq_true', Bool.not_eq_false] at hnear
    exact ⟨hpasses.sublist.cons_cons x, .cons ht hpasses.tests,
      forall_mem_cons.mpr ⟨hnear, hpasses.near⟩⟩
  | case5 t ts x xs _ _ ih =>
    have hpasses := ih h
    exact ⟨hpasses.sublist.cons x, hpasses.tests, hpasses.near⟩

theorem first_of_search (h : search near ts xs = some picks) : First ts xs picks := by
  fun_induction search near ts xs generalizing picks with
  | case1 xs =>
    cases h
    exact .nil xs
  | case2 | case3 => cases h
  | case4 t ts x xs _ ht ih =>
    obtain ⟨rest, hrest, rfl⟩ := Option.map_eq_some_iff.mp h
    exact .take ht (ih hrest)
  | case5 t ts x xs _ ht ih => exact .skip (Bool.eq_false_iff.mpr ht) (ih h)

theorem exists_search (hnear : xs.Pairwise fun x y => near y = true → near x = true)
    (h : Passes near ts xs picks) : ∃ found, search near ts xs = some found := by
  induction xs generalizing ts picks with
  | nil =>
    have hnil := sublist_nil.mp h.sublist
    have htests := h.tests
    rw [hnil, forall₂_nil_right_iff] at htests
    exact ⟨[], by rw [htests, search]⟩
  | cons x xs ih =>
    obtain ⟨hx, hnear⟩ := pairwise_cons.mp hnear
    obtain ⟨hsub, htests, hreach⟩ := h
    cases htests with
    | nil => exact ⟨[], by rw [search]⟩
    | @cons t y ts picks ht htests =>
      have hy : near y = true := hreach y mem_cons_self
      have hxnear : near x = true := by
        cases mem_cons.mp (hsub.subset mem_cons_self) with
        | inl heq => exact heq ▸ hy
        | inr hmem => exact hx y hmem hy
      have hrest : ∀ z ∈ picks, near z = true := fun z hz => hreach z (mem_cons_of_mem y hz)
      rw [search, hxnear, Bool.not_true, if_neg Bool.false_ne_true]
      by_cases htx : t x = true
      · -- the search takes `x`; the subsequence goes on behind it, if not sooner
        have htail : picks.Sublist xs := by
          cases hsub with
          | cons _ hsub => exact (sublist_cons_self y picks).trans hsub
          | cons_cons _ hsub => exact hsub
        obtain ⟨found, hfound⟩ := ih hnear ⟨htail, htests, hrest⟩
        exact ⟨x :: found, by rw [if_pos htx, hfound]; rfl⟩
      · have hskip : (y :: picks).Sublist xs := by
          cases hsub with
          | cons _ hsub => exact hsub
          | cons_cons => exact absurd ht htx
        rw [if_neg htx]
        exact ih hnear ⟨hskip, .cons ht htests, hreach⟩

theorem First.subset (h : First ts xs picks) : ∀ x ∈ picks, x ∈ xs := by
  induction h with
  | nil => simp
  | skip _ _ ih => exact fun x hx => mem_cons_of_mem _ (ih x hx)
  | take _ _ ih =>
    refine forall_mem_cons.mpr ⟨mem_cons_self, fun x hx => ?_⟩
    exact mem_cons_of_mem _ (ih x hx)

/-! ## In a sequence that increases -/

variable [Preorder α]

theorem First.before {t : α → Bool} {i j : α} (hxs : xs.Pairwise (· < ·))
    (h : First (t :: ts) xs (i :: picks)) (hj : j ∈ xs) (hlt : j < i) : t j = false := by
  induction xs with
  | nil => cases hj
  | cons x xs ih =>
    obtain ⟨hx, hxs⟩ := pairwise_cons.mp hxs
    cases h with
    | skip hfalse h =>
      cases mem_cons.mp hj with
      | inl heq => exact heq ▸ hfalse
      | inr hmem => exact ih hxs h hmem
    | take _ _ =>
      cases mem_cons.mp hj with
      | inl heq => exact absurd (heq ▸ hlt) (lt_irrefl _)
      | inr hmem => exact absurd (hx j hmem) hlt.asymm

theorem First.gap {k : ℕ} {t : α → Bool} {i i' j : α} (hxs : xs.Pairwise (· < ·))
    (h : First ts xs picks) (hi : picks[k]? = some i) (hi' : picks[k + 1]? = some i')
    (ht : ts[k + 1]? = some t) (hj : j ∈ xs) (hlo : i < j) (hhi : j < i') : t j = false := by
  induction h generalizing k with
  | nil => cases hi
  | @skip _ _ x xs picks _ h ih =>
    obtain ⟨hx, hxs⟩ := pairwise_cons.mp hxs
    have hxi : x < i := hx i (h.subset i (mem_of_getElem? hi))
    cases mem_cons.mp hj with
    | inl heq => exact absurd (heq ▸ hlo) hxi.asymm
    | inr hmem => exact ih hxs hi hi' ht hmem
  | @take _ ts x xs picks _ h ih =>
    obtain ⟨hx, hxs⟩ := pairwise_cons.mp hxs
    rw [getElem?_cons_succ] at hi' ht
    cases k with
    | zero =>
      obtain rfl : x = i := Option.some.inj hi
      have hmem : j ∈ xs := by
        cases mem_cons.mp hj with
        | inl heq => exact absurd (heq ▸ hlo) (lt_irrefl _)
        | inr hmem => exact hmem
      cases picks with
      | nil => cases hi'
      | cons p picks =>
        obtain rfl : p = i' := Option.some.inj hi'
        cases ts with
        | nil => cases ht
        | cons s ts =>
          obtain rfl : s = t := Option.some.inj ht
          exact h.before hxs hmem hhi
    | succ =>
      rw [getElem?_cons_succ] at hi
      have hxi : x < i := hx i (h.subset i (mem_of_getElem? hi))
      cases mem_cons.mp hj with
      | inl heq => exact absurd (heq ▸ hlo) hxi.asymm
      | inr hmem => exact ih hxs hi hi' ht hmem

end

/-! ## From every element -/

section
variable (near : α → α → Bool) (t : α → Bool) (ts : List (α → Bool))

/-- What is found from an element, if it passes the test `t`. -/
def searchFrom (x : α) (xs : List α) : Option (List α) :=
  if t x then (search (near x) ts xs).map (x :: ·) else none

def searchAll : List α → List (List α)
  | [] => []
  | x :: xs => (searchFrom near t ts x xs).toList ++ searchAll xs

variable {near t ts}

theorem search_map {β : Type*} (f : β → α) (near : α → Bool) (ts : List (α → Bool)) (xs : List β) :
    search near ts (xs.map f) = (search (near ∘ f) (ts.map (· ∘ f)) xs).map (List.map f) := by
  induction xs generalizing ts with
  | nil => cases ts <;> rfl
  | cons x xs ih =>
    cases ts with
    | nil => rfl
    | cons t ts =>
      simp only [map_cons, search, Function.comp_apply]
      split
      · rfl
      split
      · rw [ih, Option.map_map, Option.map_map]
        rfl
      · exact ih (t :: ts)

theorem searchAll_map {β : Type*} (f : β → α) (xs : List β) :
    searchAll near t ts (xs.map f) =
      (searchAll (fun x => near (f x) ∘ f) (t ∘ f) (ts.map (· ∘ f)) xs).map (List.map f) := by
  induction xs with
  | nil => rfl
  | cons x xs ih =>
    have hfrom : searchFrom near t ts (f x) (xs.map f) =
        (searchFrom (fun x => near (f x) ∘ f) (t ∘ f) (ts.map (· ∘ f)) x xs).map (List.map f) := by
      simp only [searchFrom, Function.comp_apply, search_map]
      split
      · rw [Option.map_map, Option.map_map]
        rfl
      · rfl
    rw [map_cons, searchAll, searchAll, ih, hfrom, map_append, Option.toList_map]

theorem head?_of_searchFrom {x : α} {xs picks : List α}
    (h : searchFrom near t ts x xs = some picks) : picks.head? = some x := by
  unfold searchFrom at h
  split at h
  · obtain ⟨rest, -, rfl⟩ := Option.map_eq_some_iff.mp h
    rfl
  · cases h

theorem mem_searchAll {xs picks : List α} (h : picks ∈ searchAll near t ts xs) :
    ∃ before x after, xs = before ++ x :: after ∧ searchFrom near t ts x after = some picks := by
  induction xs with
  | nil => cases h
  | cons x xs ih =>
    rw [searchAll, mem_append, Option.mem_toList] at h
    cases h with
    | inl hfound => exact ⟨[], x, xs, rfl, hfound⟩
    | inr hrest =>
      obtain ⟨before, y, after, rfl, hfound⟩ := ih hrest
      exact ⟨x :: before, y, after, rfl, hfound⟩

theorem filter_head_searchAll [DecidableEq α] {before after : List α} {x : α}
    (h : (before ++ x :: after).Nodup) :
    (searchAll near t ts (before ++ x :: after)).filter (fun picks => picks.head? = some x) =
      (searchFrom near t ts x after).toList := by
  have hnone : ∀ y ys, y ≠ x →
      (searchFrom near t ts y ys).toList.filter (fun picks => picks.head? = some x) = [] := by
    intro y ys hyx
    rw [filter_eq_nil_iff]
    intro picks hpicks
    rw [Option.mem_toList] at hpicks
    rw [head?_of_searchFrom hpicks, decide_eq_true_eq, Option.some.injEq]
    exact hyx
  have hrest : ∀ ys, x ∉ ys →
      (searchAll near t ts ys).filter (fun picks => picks.head? = some x) = [] := by
    intro ys hys
    induction ys with
    | nil => rfl
    | cons y ys ih =>
      obtain ⟨hne, hys⟩ := ne_and_not_mem_of_not_mem_cons hys
      rw [searchAll, filter_append, hnone y ys hne.symm, ih hys]
      rfl
  induction before with
  | nil =>
    have hx : x ∉ after := (nodup_cons.mp h).1
    have hself : (searchFrom near t ts x after).toList.filter
        (fun picks => picks.head? = some x) = (searchFrom near t ts x after).toList := by
      rw [filter_eq_self]
      intro picks hpicks
      rw [Option.mem_toList] at hpicks
      exact decide_eq_true (head?_of_searchFrom hpicks)
    rw [nil_append, searchAll, filter_append, hself, hrest after hx, append_nil]
  | cons y before ih =>
    rw [cons_append] at h ⊢
    obtain ⟨hy, hnodup⟩ := nodup_cons.mp h
    have hne : y ≠ x := by
      rintro rfl
      exact hy (mem_append_right _ mem_cons_self)
    rw [searchAll, filter_append, hnone y _ hne, ih hnodup]
    rfl

end

end ArgusEdr.Subsequence
