import Mathlib

/-!
# Hash-linked logs

Every entry of a hash-linked log carries the hash of the entry before it and the hash of its own
record, the fields of which are joined by a separator. The joined text determines the fields as far as
the separator is found equally often in them (`intercalate_inj`). Two chains that end in the same hash
agree in the hash of every entry (`Linked.forall₂_digest`).
-/

namespace ArgusEdr.HashChain

open List

/-! ## Fields joined by a separator -/

section
variable {α : Type*} [DecidableEq α] {sep : α} {a b c d : List α}

/-- A text is cut in one way only at a separator, once it is known how many stand before it. -/
theorem append_cons_inj_of_count (h : a ++ sep :: b = c ++ sep :: d)
    (hcount : a.count sep = c.count sep) : a = c ∧ b = d := by
  induction a generalizing c with
  | nil =>
    cases c with
    | nil => exact ⟨rfl, (List.cons.inj h).2⟩
    | cons x c =>
      -- `c` would begin with the separator, which the empty text does not have
      have hx : sep = x := (List.cons.inj h).1
      rw [← hx, count_cons_self, count_nil] at hcount
      omega
  | cons x a ih =>
    cases c with
    | nil =>
      have hx : x = sep := (List.cons.inj h).1
      rw [hx, count_cons_self, count_nil] at hcount
      omega
    | cons y c =>
      obtain ⟨rfl, h'⟩ := List.cons.inj h
      have hcount' : a.count sep = c.count sep := by
        rw [count_cons, count_cons] at hcount
        omega
      obtain ⟨rfl, rfl⟩ := ih h' hcount'
      exact ⟨rfl, rfl⟩

/-- A text is cut in one way only at its last separator. -/
theorem append_cons_inj_of_notMem (h : a ++ sep :: b = c ++ sep :: d) (hb : sep ∉ b)
    (hd : sep ∉ d) : a = c ∧ b = d := by
  refine append_cons_inj_of_count h ?_
  have hcount := congrArg (List.count sep) h
  rw [count_append, count_append, count_cons_self, count_cons_self,
    count_eq_zero_of_not_mem hb, count_eq_zero_of_not_mem hd] at hcount
  omega

/-- Fields in which the separator is found equally often are determined by the text they are
joined to. -/
theorem intercalate_inj {xs ys : List (List α)}
    (hcount : List.Forall₂ (fun x y => x.count sep = y.count sep) xs ys)
    (h : [sep].intercalate xs = [sep].intercalate ys) : xs = ys := by
  induction hcount with
  | nil => rfl
  | @cons x y xs ys hxy hrest ih =>
    cases hrest with
    | nil => simpa [List.intercalate] using h
    | cons =>
      rw [intercalate_cons_cons, intercalate_cons_cons, append_assoc,
        append_assoc] at h
      obtain ⟨hhead, htail⟩ := append_cons_inj_of_count h hxy
      rw [hhead, ih htail]

omit [DecidableEq α] in
/-- The last field is what stands behind the last separator, if it has none itself. -/
theorem intercalate_concat (x : List α) (xs : List (List α)) (last : List α) :
    [sep].intercalate (x :: xs ++ [last]) = [sep].intercalate (x :: xs) ++ sep :: last := by
  induction xs generalizing x with
  | nil => simp [List.intercalate]
  | cons y xs ih =>
    rw [cons_append, cons_append, intercalate_cons_cons, ← cons_append, ih,
      intercalate_cons_cons, ← append_assoc]

end

/-! ## Chains -/

section
variable {ε η : Type*} (prev hash digest : ε → η)

/-- From the hash `h` on, every entry carries the hash of the one before it, and as its own the
hash of its record. -/
def Linked : η → List ε → Prop
  | _, [] => True
  | h, e :: es => prev e = h ∧ digest e = hash e ∧ Linked (hash e) es

def tip (h : η) (es : List ε) : η := es.foldl (fun _ e => hash e) h

variable {prev hash digest}

theorem tip_concat (h : η) (es : List ε) (e : ε) : tip hash h (es ++ [e]) = hash e := by
  simp [tip]

theorem tip_eq_getLast? (h : η) (es : List ε) :
    tip hash h es = (es.getLast?.map hash).getD h := by
  induction es using List.reverseRecOn with
  | nil => rfl
  | append_singleton => simp [tip_concat]

variable {h : η} {xs ys es : List ε}

theorem linked_append :
    Linked prev hash digest h (xs ++ ys) ↔
      Linked prev hash digest h xs ∧ Linked prev hash digest (tip hash h xs) ys := by
  induction xs generalizing h with
  | nil => simp [Linked, tip]
  | cons e xs ih =>
    simp only [cons_append, Linked, ih, and_assoc]
    rfl

theorem linked_concat {e : ε} :
    Linked prev hash digest h (es ++ [e]) ↔
      Linked prev hash digest h es ∧ prev e = tip hash h es ∧ digest e = hash e := by
  rw [linked_append]
  simp [Linked]

theorem Linked.prev_eq (hes : Linked prev hash digest h es) {e : ε} (he : e ∈ es) :
    prev e = h ∨ ∃ f, prev e = digest f := by
  induction es generalizing h with
  | nil => exact absurd he not_mem_nil
  | cons f es ih =>
    obtain ⟨hprev, hdigest, hrest⟩ := hes
    cases he with
    | head => exact .inl hprev
    | tail _ he =>
      cases ih hrest he with
      | inl hf => exact .inr ⟨f, by rw [hf, hdigest]⟩
      | inr hf => exact .inr hf

/-- Two chains of one length that end in the same hash agree in the hash of every entry, if
wherever the hashes of two of their records agree the hashes the records carry do. -/
theorem Linked.forall₂_digest {h' : η} (hlen : xs.length = ys.length)
    (hxs : Linked prev hash digest h xs) (hys : Linked prev hash digest h' ys)
    (htip : tip hash h xs = tip hash h' ys)
    (hprev : ∀ e ∈ xs, ∀ f ∈ ys, digest e = digest f → prev e = prev f) :
    List.Forall₂ (fun e f => digest e = digest f) xs ys := by
  -- the induction runs from the ends of the chains, where the hashes are known to agree
  induction xs using List.reverseRecOn generalizing ys with
  | nil =>
    rw [length_nil, eq_comm, length_eq_zero_iff] at hlen
    rw [hlen]
    exact .nil
  | append_singleton xs e ih =>
    cases ys using List.reverseRecOn with
    | nil =>
      rw [length_append, length_singleton, length_nil] at hlen
      omega
    | append_singleton ys f =>
      rw [linked_concat] at hxs hys
      rw [tip_concat, tip_concat] at htip
      have hdigest : digest e = digest f := by rw [hxs.2.2, hys.2.2, htip]
      have hlen' : xs.length = ys.length := by simpa using hlen
      have htip' : tip hash h xs = tip hash h' ys := by
        rw [← hxs.2.1, ← hys.2.1]
        exact hprev e (by simp) f (by simp) hdigest
      refine rel_append (ih hlen' hxs.1 hys.1 htip' ?_) (.cons hdigest .nil)
      intro e he f hf
      exact hprev e (mem_append_left _ he) f (mem_append_left _ hf)

end

end ArgusEdr.HashChain
