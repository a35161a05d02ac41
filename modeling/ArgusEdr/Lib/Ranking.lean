import Mathlib

/-!
# The first entries of a sorted list

A query that sorts and then cuts to a limit is `(l.insertionSort r).take n`; the sort is stable.
`take_insertionSort_eq_iff` says when the list itself is already the answer, `take_eq_take_iff` when two
sorts that order equal keys in opposite ways give the same one: exactly if no two entries with one key
have fewer than `n` entries with a larger key before them.
-/

namespace ArgusEdr.Ranking

open List

variable {α : Type*}

/-! ## A list that needs no sorting -/

section
variable (r : α → α → Prop)

/-- Each of the first `n` entries comes, by `r`, before every entry behind it. -/
def Leading : ℕ → List α → Prop
  | 0, _ => True
  | _, [] => True
  | n + 1, a :: l => (∀ b ∈ l, r a b) ∧ Leading n l

instance instDecidableLeading [DecidableRel r] : (n : ℕ) → (l : List α) → Decidable (Leading r n l)
  | 0, [] => .isTrue trivial
  | 0, _ :: _ => .isTrue trivial
  | _ + 1, [] => .isTrue trivial
  | n + 1, a :: l =>
    have := instDecidableLeading n l
    inferInstanceAs (Decidable ((∀ b ∈ l, r a b) ∧ Leading r n l))

variable {r} [DecidableRel r] [Std.Total r] [IsTrans α r]

theorem forall_rel_of_insertionSort_cons {a : α} {l t : List α}
    (h : (a :: l).insertionSort r = a :: t) : ∀ b ∈ l, r a b := by
  have hperm : (a :: t).Perm (a :: l) := h ▸ perm_insertionSort r (a :: l)
  have hsorted : (a :: t).Pairwise r := h ▸ pairwise_insertionSort r (a :: l)
  intro b hb
  exact (pairwise_cons.mp hsorted).1 b (hperm.cons_inv.mem_iff.mpr hb)

theorem take_insertionSort_eq_iff (n : ℕ) (l : List α) :
    (l.insertionSort r).take n = l.take n ↔ Leading r n l := by
  induction n generalizing l with
  | zero => simp [Leading]
  | succ n ih =>
    cases l with
    | nil => simp [Leading]
    | cons a l =>
      constructor
      · intro h
        -- the sorted list starts with `a`, so sorting only touched what is behind it
        have hhead : ∃ t, (a :: l).insertionSort r = a :: t := by
          cases hsort : (a :: l).insertionSort r with
          | nil =>
            rw [hsort] at h
            cases h
          | cons b t =>
            rw [hsort, take_succ_cons, take_succ_cons, List.cons.injEq] at h
            exact ⟨t, by rw [h.1]⟩
        obtain ⟨t, ht⟩ := hhead
        have hall := forall_rel_of_insertionSort_cons ht
        refine ⟨hall, (ih l).mp ?_⟩
        rw [insertionSort_cons_of_forall_rel r hall, take_succ_cons,
          take_succ_cons, List.cons.injEq] at h
        exact h.2
      · rintro ⟨hall, hrest⟩
        rw [insertionSort_cons_of_forall_rel r hall, take_succ_cons,
          take_succ_cons, (ih l).mpr hrest]

end

/-- Entries with distinct keys are sorted strictly. -/
theorem pairwise_insertionSort_of_nodup {κ : Type*} [LinearOrder κ] {key : α → κ} {l : List α}
    (h : (l.map key).Nodup) :
    (l.insertionSort fun a b => key a ≤ key b).Pairwise fun a b => key a < key b := by
  have hsort := perm_insertionSort (fun a b => key a ≤ key b) l
  have hne := pairwise_map.mp ((hsort.map key).nodup_iff.mpr h)
  have : Std.Total fun a b => key a ≤ key b := ⟨fun a b => le_total (key a) (key b)⟩
  have : IsTrans α fun a b => key a ≤ key b := ⟨fun a b c => le_trans⟩
  have hle := pairwise_insertionSort (fun a b => key a ≤ key b) l
  exact (hle.and hne).imp fun hab => lt_of_le_of_ne hab.1 hab.2

theorem insertionSort_congr {r s : α → α → Prop} [DecidableRel r] [DecidableRel s] {l : List α}
    (h : l.Pairwise fun a b => r a b ↔ s a b) : l.insertionSort r = l.insertionSort s := by
  induction l with
  | nil => rfl
  | cons a l ih =>
    obtain ⟨ha, hl⟩ := pairwise_cons.mp h
    rw [insertionSort_cons, insertionSort_cons, ih hl]
    have hinsert : ∀ t : List α, (∀ b ∈ t, b ∈ l) →
        t.orderedInsert r a = t.orderedInsert s a := by
      intro t ht
      induction t with
      | nil => rfl
      | cons b t iht =>
        rw [orderedInsert_cons, orderedInsert_cons,
          iht fun c hc => ht c (mem_cons_of_mem b hc),
          if_congr (ha b (ht b mem_cons_self)) rfl rfl]
    exact hinsert _ fun b hb => (mem_insertionSort s).mp hb

/-! ## Two orders of equal keys -/

section
variable {κ : Type*} [LinearOrder κ] (key : α → κ)

/-- Larger keys first, and equal keys in the order `before`. -/
def Descends (before : α → α → Prop) (l : List α) : Prop :=
  l.Pairwise fun a b => key b ≤ key a ∧ (key a = key b → before a b)

variable {key} {before : α → α → Prop} {l : List α}

theorem descends_insertionSort {r apart : α → α → Prop} [DecidableRel r] [Std.Total r]
    [IsTrans α r] (hsymm : ∀ {a b}, apart a b → apart b a) (hapart : l.Pairwise apart)
    (hr : ∀ {a b}, apart a b → r a b → key b ≤ key a ∧ (key a = key b → before a b)) :
    Descends key before (l.insertionSort r) := by
  have hpair : (l.insertionSort r).Pairwise apart :=
    ((perm_insertionSort r l).pairwise_iff hsymm).mpr hapart
  exact (hpair.and (pairwise_insertionSort r l)).imp fun hab => hr hab.1 hab.2

theorem Descends.eq_filter_append (h : Descends key before l) (t : κ) :
    l = l.filter (fun a => t < key a) ++ l.filter (fun a => ¬t < key a) := by
  induction l with
  | nil => rfl
  | cons a l ih =>
    obtain ⟨ha, hl⟩ := pairwise_cons.mp h
    by_cases hlt : t < key a
    · simpa [hlt] using ih hl
    · have hnone : l.filter (fun b => t < key b) = [] := by
        rw [filter_eq_nil_iff]
        intro b hb
        simpa using (ha b hb).1.trans (not_lt.mp hlt)
      have hall : l.filter (fun b => ¬t < key b) = l := by
        rw [filter_eq_self]
        intro b hb
        simpa using (ha b hb).1.trans (not_lt.mp hlt)
      rw [filter_cons_of_neg (by simpa using hlt),
        filter_cons_of_pos (by simpa using hlt), hnone, hall]
      rfl

/-- The entry behind those with a key above `t`, if there is one with the key `t`: it has that
key too, and comes before all others that have it. -/
theorem Descends.getElem?_countP (h : Descends key before l) {a : α} (ha : a ∈ l) :
    ∃ b, l[l.countP fun c => key a < key c]? = some b ∧
      ∀ c ∈ l, key c = key a → c ≠ b → before b c := by
  have hsplit := h.eq_filter_append (key a)
  have hmem : a ∈ l.filter fun c => ¬key a < key c := mem_filter.mpr ⟨ha, by simp⟩
  cases hrest : l.filter fun c => ¬key a < key c with
  | nil =>
    rw [hrest] at hmem
    cases hmem
  | cons b rest =>
    have hsuffix : Descends key before (b :: rest) := hrest ▸ List.Pairwise.filter _ h
    obtain ⟨hb, -⟩ := pairwise_cons.mp hsuffix
    -- `b` has the largest of the keys that are left, and `a` is among those entries
    have hbkey : key b = key a := by
      have hle : ¬key a < key b := by
        have hbmem : b ∈ l.filter fun c => ¬key a < key c := by
          rw [hrest]
          exact mem_cons_self
        simpa using (mem_filter.mp hbmem).2
      rw [hrest] at hmem
      rcases mem_cons.mp hmem with rfl | hmem
      · rfl
      · exact le_antisymm (not_lt.mp hle) (hb a hmem).1
    refine ⟨b, ?_, ?_⟩
    · rw [hrest] at hsplit
      rw [countP_eq_length_filter]
      generalize l.filter (fun c => decide (key a < key c)) = larger at hsplit
      rw [hsplit, getElem?_append_right le_rfl, Nat.sub_self, getElem?_cons_zero]
    · intro c hc hkey hne
      have hcmem : c ∈ b :: rest := by
        rw [← hrest]
        exact mem_filter.mpr ⟨hc, by simp [hkey]⟩
      rcases mem_cons.mp hcmem with rfl | hcmem
      · exact absurd rfl hne
      · exact (hb c hcmem).2 (hbkey.trans hkey.symm)

theorem Descends.countP_le (h : Descends key before l) {i : ℕ} {a : α} (ha : l[i]? = some a) :
    (l.countP fun c => key a < key c) ≤ i := by
  obtain ⟨hi, hget⟩ := List.getElem?_eq_some_iff.mp ha
  have hdrop : l.drop i = a :: l.drop (i + 1) := by
    rw [← hget]
    exact drop_eq_getElem_cons hi
  have hpair : Descends key before (l.drop i) := List.Pairwise.sublist (drop_sublist i l) h
  rw [hdrop] at hpair
  obtain ⟨hlow, -⟩ := pairwise_cons.mp hpair
  have hzero : (l.drop i).countP (fun c => key a < key c) = 0 := by
    rw [hdrop, countP_eq_zero]
    intro c hc
    rcases mem_cons.mp hc with rfl | hc
    · simp
    · simpa using (hlow c hc).1
  calc l.countP (fun c => key a < key c)
      = (l.take i ++ l.drop i).countP (fun c => key a < key c) := by rw [take_append_drop]
    _ = (l.take i).countP fun c => key a < key c := by rw [countP_append, hzero, add_zero]
    _ ≤ (l.take i).length := countP_le_length
    _ ≤ i := length_take_le i l

theorem Descends.map_key_eq {before' : α → α → Prop} {l' : List α} (h : Descends key before l)
    (h' : Descends key before' l') (hperm : l.Perm l') : l.map key = l'.map key := by
  have hsorted : (l.map key).Pairwise (· ≥ ·) := pairwise_map.mpr (h.imp fun hab => hab.1)
  have hsorted' : (l'.map key).Pairwise (· ≥ ·) := pairwise_map.mpr (h'.imp fun hab => hab.1)
  exact (hperm.map key).eq_of_pairwise (fun a b _ _ hab hba => le_antisymm hba hab) hsorted hsorted'

/-- Two sorts by one key that put equal keys in opposite orders agree on the first `n` entries
exactly if every two entries with one key have at least `n` entries with a larger key before
them. -/
theorem take_eq_take_iff {l' : List α} (hasymm : ∀ a b, before a b → ¬before b a)
    (h : Descends key before l) (h' : Descends key (fun a b => before b a) l')
    (hperm : l.Perm l') (n : ℕ) :
    l.take n = l'.take n ↔
      ∀ a ∈ l, ∀ b ∈ l, a ≠ b → key a = key b → n ≤ l.countP fun c => key a < key c := by
  constructor
  · intro htake a ha b hb hne hkey
    by_contra hlt
    rw [not_le] at hlt
    have hcount : (l'.countP fun c => key a < key c) = l.countP fun c => key a < key c :=
      hperm.symm.countP_eq _
    obtain ⟨c, hc, hfirst⟩ := h.getElem?_countP ha
    obtain ⟨c', hc', hlast⟩ := h'.getElem?_countP (hperm.mem_iff.mp ha)
    -- both lists have the same entry behind the larger keys: it is before and after the tie
    have heq : c = c' := by
      rw [hcount, ← getElem?_take_of_lt hlt, ← htake, getElem?_take_of_lt hlt, hc] at hc'
      exact Option.some.inj hc'
    subst heq
    have hclash : ∀ d ∈ l, key d = key a → d = c := by
      intro d hd hkeyd
      by_contra hdc
      exact hasymm c d (hfirst d hd hkeyd hdc) (hlast d (hperm.mem_iff.mp hd) hkeyd hdc)
    exact hne ((hclash a ha rfl).trans (hclash b hb hkey.symm).symm)
  · intro hties
    refine ext_getElem? fun i => ?_
    by_cases hi : i < n
    · rw [getElem?_take_of_lt hi, getElem?_take_of_lt hi]
      have hkeys : (l[i]?).map key = (l'[i]?).map key := by
        rw [← getElem?_map, ← getElem?_map, h.map_key_eq h' hperm]
      cases ha : l[i]? with
      | none =>
        rw [ha] at hkeys
        simpa using hkeys.symm
      | some a =>
        rw [ha] at hkeys
        cases hb : l'[i]? with
        | none =>
          rw [hb] at hkeys
          cases hkeys
        | some b =>
          rw [hb, Option.map_some, Option.map_some, Option.some.injEq] at hkeys
          by_contra hne
          have hbl : b ∈ l := hperm.mem_iff.mpr (mem_of_getElem? hb)
          have hle := hties a (mem_of_getElem? ha) b hbl (fun hab => hne (by rw [hab])) hkeys
          have := h.countP_le ha
          omega
    · rw [getElem?_take_eq_none (not_lt.mp hi), getElem?_take_eq_none (not_lt.mp hi)]

end

end ArgusEdr.Ranking
