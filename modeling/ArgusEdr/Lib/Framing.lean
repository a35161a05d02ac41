import ArgusEdr.Lib.HashChain

/-!
# Records written one after the other

The records of a list can be told apart in what is written of them if each shows where it ends
(`SelfDelimiting`), as a name, the length of a content, and the content do (`frame`). Where nothing
shows it, the places at which to cut have to be known: `List.eq_iff_flatten_eq`.
-/

namespace ArgusEdr.Framing

open List

variable {α β : Type*}

/-- In front of any text, what is written of a record with `P` is read back in one way only. -/
def SelfDelimiting (P : α → Prop) (write : α → List β) : Prop :=
  ∀ a b u v, P a → P b → write a ++ u = write b ++ v → a = b ∧ u = v

theorem SelfDelimiting.flatMap_inj {P : α → Prop} {write : α → List β}
    (h : SelfDelimiting P write) (hne : ∀ a, write a ≠ []) {xs ys : List α} (hxs : ∀ a ∈ xs, P a)
    (hys : ∀ a ∈ ys, P a) (heq : xs.flatMap write = ys.flatMap write) : xs = ys := by
  induction xs generalizing ys with
  | nil =>
    cases ys with
    | nil => rfl
    | cons b ys =>
      rw [flatMap_nil, flatMap_cons, eq_comm, append_eq_nil_iff] at heq
      exact absurd heq.1 (hne b)
  | cons a xs ih =>
    cases ys with
    | nil =>
      rw [flatMap_nil, flatMap_cons, append_eq_nil_iff] at heq
      exact absurd heq.1 (hne a)
    | cons b ys =>
      rw [forall_mem_cons] at hxs hys
      obtain ⟨rfl, hrest⟩ := h a b _ _ hxs.1 hys.1 heq
      rw [ih hxs.2 hys.2 hrest]

section
variable [DecidableEq β]

/-- A text is cut in one way only at its first separator. -/
theorem append_cons_inj_of_first {sep : β} {a b c d : List β} (h : a ++ sep :: b = c ++ sep :: d)
    (ha : sep ∉ a) (hc : sep ∉ c) : a = c ∧ b = d := by
  refine HashChain.append_cons_inj_of_count h ?_
  rw [count_eq_zero_of_not_mem ha, count_eq_zero_of_not_mem hc]

/-- A name, the length of a content as `size` writes it, and the content. -/
def frame (sep : β) (size : ℕ → List β) (name content : List β) : List β :=
  name ++ sep :: (size content.length ++ sep :: content)

theorem frame_append_inj {sep : β} {size : ℕ → List β} (hinj : Function.Injective size)
    (hsep : ∀ n, sep ∉ size n) {name name' content content' u v : List β} (hname : sep ∉ name)
    (hname' : sep ∉ name')
    (h : frame sep size name content ++ u = frame sep size name' content' ++ v) :
    name = name' ∧ content = content' ∧ u = v := by
  simp only [frame, append_assoc, cons_append] at h
  obtain ⟨rfl, hrest⟩ := append_cons_inj_of_first h hname hname'
  obtain ⟨hsize, htail⟩ := append_cons_inj_of_first hrest (hsep _) (hsep _)
  -- the length says where the content ends, whatever it holds
  obtain ⟨rfl, rfl⟩ := append_inj htail (hinj hsize)
  exact ⟨rfl, rfl, rfl⟩

end

end ArgusEdr.Framing
