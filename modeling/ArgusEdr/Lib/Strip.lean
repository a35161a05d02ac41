import Mathlib

/-!
# Taking words off the ends of a list

`strip words b` takes words of a given set off the front of `b` as long as there is one, and
`stripEnd` takes them off the back. What is left has none of the words at that end
(`not_prefix_strip`, `not_suffix_stripEnd`), and nothing is taken if there was none to begin with.

Words are often the codes of some letters. If a text is the concatenation of the codes of its
letters, and the words are found in it only as codes of its first letter, then stripping the text is
dropping letters (`strip_flatMap`, `stripEnd_flatMap`).
-/

namespace ArgusEdr.Strip

open List

variable {α β : Type*} [DecidableEq α]

/-- Skips `k` letters, then takes off words. -/
def stripFrom (words : List (List α)) : ℕ → List α → List α
  | _, [] => []
  | k + 1, _ :: b => stripFrom words k b
  | 0, a :: b =>
    match words.find? (·.isPrefixOf (a :: b)) with
    | some w => stripFrom words (w.length - 1) b
    | none => a :: b

def strip (words : List (List α)) (b : List α) : List α := stripFrom words 0 b

def stripEnd (words : List (List α)) (b : List α) : List α :=
  (strip (words.map List.reverse) b.reverse).reverse

section
variable {words : List (List α)} {b w : List α}

@[simp] theorem strip_nil : strip words [] = [] := by
  rw [strip, stripFrom]

theorem stripFrom_eq_drop (k : ℕ) (b : List α) :
    stripFrom words k b = strip words (b.drop k) := by
  induction b generalizing k with
  | nil => rw [stripFrom, drop_nil, strip_nil]
  | cons a b ih =>
    cases k with
    | zero => rfl
    | succ => rw [stripFrom, ih, drop_succ_cons]

theorem strip_eq_self (h : ∀ w ∈ words, ¬w <+: b) : strip words b = b := by
  cases b with
  | nil => exact strip_nil
  | cons a b =>
    have hnone : words.find? (·.isPrefixOf (a :: b)) = none := by
      rw [find?_eq_none]
      intro w hw hpre
      exact h w hw (List.isPrefixOf_iff_prefix.mp hpre)
    rw [strip, stripFrom, hnone]

theorem strip_eq_drop (hne : [] ∉ words) (h : ∃ w ∈ words, w <+: b) :
    ∃ w ∈ words, w <+: b ∧ strip words b = strip words (b.drop w.length) := by
  obtain ⟨v, hv, hpre⟩ := h
  cases b with
  | nil => exact absurd (prefix_nil.mp hpre ▸ hv) hne
  | cons a b =>
    cases hfind : words.find? (·.isPrefixOf (a :: b)) with
    | none =>
      have hnone := find?_eq_none.mp hfind v hv
      exact absurd (List.isPrefixOf_iff_prefix.mpr hpre) hnone
    | some w =>
      have hw : w ∈ words := mem_of_find?_eq_some hfind
      have hfound := find?_some hfind
      have hwpre : w <+: a :: b := isPrefixOf_iff_prefix.mp hfound
      refine ⟨w, hw, hwpre, ?_⟩
      cases w with
      | nil => exact absurd hw hne
      | cons c w =>
        rw [strip, stripFrom, hfind]
        exact stripFrom_eq_drop w.length b

theorem strip_induction (hne : [] ∉ words) {P : List α → List α → Prop}
    (hdone : ∀ b, (∀ w ∈ words, ¬w <+: b) → P b b)
    (hword : ∀ w ∈ words, ∀ b r, P b r → P (w ++ b) r) (b : List α) : P b (strip words b) := by
  induction hlen : b.length using Nat.strong_induction_on generalizing b with
  | _ n ih =>
    by_cases h : ∃ w ∈ words, w <+: b
    · obtain ⟨w, hw, hpre, hstrip⟩ := strip_eq_drop hne h
      obtain ⟨rest, rfl⟩ := hpre
      have hpos : 0 < w.length := length_pos_iff.mpr fun hnil => hne (hnil ▸ hw)
      rw [hstrip, drop_left]
      refine hword w hw rest _ (ih rest.length ?_ rest rfl)
      rw [← hlen, length_append]
      omega
    · push Not at h
      rw [strip_eq_self h]
      exact hdone b h

theorem strip_isSuffix (hne : [] ∉ words) (b : List α) : strip words b <:+ b :=
  strip_induction (P := fun b r => r <:+ b) hne (fun b _ => suffix_refl b)
    (fun w _ _ _ h => h.trans (suffix_append w _)) b

theorem not_prefix_strip (hne : [] ∉ words) (b : List α) : ∀ w ∈ words, ¬w <+: strip words b :=
  strip_induction (P := fun _ r => ∀ w ∈ words, ¬w <+: r) hne (fun _ h => h)
    (fun _ _ _ _ h => h) b

theorem strip_append (hne : [] ∉ words) (hw : w ∈ words)
    (hunique : ∀ v ∈ words, v <+: w ++ b → v = w) : strip words (w ++ b) = strip words b := by
  obtain ⟨v, hv, hpre, hstrip⟩ := strip_eq_drop hne ⟨w, hw, prefix_append w b⟩
  rw [hstrip, hunique v hv hpre, drop_left]

/-! ## The back -/

omit [DecidableEq α] in
theorem nil_notMem_map_reverse (hne : [] ∉ words) : [] ∉ words.map List.reverse := by
  simpa using hne

theorem stripEnd_isPrefix (hne : [] ∉ words) (b : List α) : stripEnd words b <+: b := by
  rw [stripEnd, ← reverse_suffix, reverse_reverse]
  exact strip_isSuffix (nil_notMem_map_reverse hne) b.reverse

theorem not_suffix_stripEnd (hne : [] ∉ words) (b : List α) :
    ∀ w ∈ words, ¬w <:+ stripEnd words b := by
  intro w hw hsuf
  refine not_prefix_strip (nil_notMem_map_reverse hne) b.reverse w.reverse
    (mem_map_of_mem hw) ?_
  rwa [← reverse_suffix, reverse_reverse]

theorem stripEnd_eq_self (h : ∀ w ∈ words, ¬w <:+ b) : stripEnd words b = b := by
  rw [stripEnd, strip_eq_self, reverse_reverse]
  intro v hv hpre
  obtain ⟨w, hw, rfl⟩ := mem_map.mp hv
  exact h w hw (List.reverse_prefix.mp hpre)

theorem stripEnd_append (hne : [] ∉ words) (hw : w ∈ words)
    (hunique : ∀ v ∈ words, v <:+ b ++ w → v = w) : stripEnd words (b ++ w) = stripEnd words b := by
  rw [stripEnd, stripEnd, reverse_append, strip_append (nil_notMem_map_reverse hne)
    (mem_map_of_mem hw)]
  intro v hv hpre
  obtain ⟨u, hu, rfl⟩ := mem_map.mp hv
  rw [← reverse_append, reverse_prefix] at hpre
  rw [hunique u hu hpre]

end

/-! ## Texts of coded letters -/

section
variable {words : List (List α)} {code : β → List α} {P : β → Bool}

theorem strip_flatMap (hne : [] ∉ words) (hmem : ∀ c, P c = true → code c ∈ words)
    (hfront : ∀ w ∈ words, ∀ c rest, w <+: code c ++ rest → P c = true ∧ w = code c)
    (cs : List β) :
    strip words (cs.flatMap code) = (cs.dropWhile P).flatMap code := by
  induction cs with
  | nil => exact strip_nil
  | cons c cs ih =>
    rw [flatMap_cons]
    cases hc : P c with
    | true =>
      rw [strip_append hne (hmem c hc) fun v hv hpre => (hfront v hv c _ hpre).2, ih,
        dropWhile_cons_of_pos hc]
    | false =>
      rw [dropWhile_cons_of_neg (by simp [hc]), flatMap_cons]
      apply strip_eq_self
      intro w hw hpre
      rw [(hfront w hw c _ hpre).1] at hc
      exact Bool.noConfusion hc

theorem stripEnd_flatMap (hne : [] ∉ words) (hmem : ∀ c, P c = true → code c ∈ words)
    (hback : ∀ w ∈ words, ∀ c rest, w <:+ rest ++ code c → P c = true ∧ w = code c)
    (cs : List β) :
    stripEnd words (cs.flatMap code) = (cs.reverse.dropWhile P).reverse.flatMap code := by
  have hreverse : ∀ ds : List β, (ds.flatMap code).reverse =
      ds.reverse.flatMap fun c => (code c).reverse := fun ds => reverse_flatMap
  rw [stripEnd, hreverse, strip_flatMap (nil_notMem_map_reverse hne)
    (fun c hc => mem_map_of_mem (hmem c hc))]
  · rw [← reverse_reverse (cs.reverse.dropWhile P), ← hreverse, reverse_reverse,
      reverse_reverse]
  · intro v hv c rest hpre
    obtain ⟨w, hw, rfl⟩ := mem_map.mp hv
    have hsuf : w <:+ rest.reverse ++ code c := by
      rw [← List.reverse_prefix, reverse_append, reverse_reverse]
      exact hpre
    obtain ⟨hc, hcode⟩ := hback w hw c rest.reverse hsuf
    exact ⟨hc, congrArg List.reverse hcode⟩

end

end ArgusEdr.Strip
