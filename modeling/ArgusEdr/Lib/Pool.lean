import Mathlib

/-!
# Goroutines over a shared state

A goroutine is a value `t : τ` that says where it stands, and `advance : γ → τ → γ × τ` its next atomic
step on the shared state. A shared invariant with one invariant per goroutine is preserved when the step
of the goroutine that moves preserves both and keeps those of the others: `advanceAt_interference`,
`advanceAt_invariant`. What the goroutines hold together is a `total`: if each step only moves things,
nothing is gained or lost (`advanceAt_conserves`), and if steps also take things in, what is held is what
has come in (`advanceAt_balanced`).
-/

namespace ArgusEdr.Pool

open List

variable {γ τ : Type*}

/-- The next step of goroutine `n`; nothing happens if there is none. -/
def advanceAt (advance : γ → τ → γ × τ) (g : γ) (ts : List τ) (n : ℕ) : γ × List τ :=
  match ts[n]? with
  | none => (g, ts)
  | some t => ((advance g t).1, ts.set n (advance g t).2)

theorem getElem?_advanceAt (advance : γ → τ → γ × τ) (g : γ) (ts : List τ) (n m : ℕ) :
    (advanceAt advance g ts n).2[m]? =
      if n = m then (ts[n]?).map fun t => (advance g t).2 else ts[m]? := by
  unfold advanceAt
  cases ht : ts[n]? with
  | none =>
    split_ifs with hnm
    · rw [← hnm]
      exact ht
    · rfl
  | some =>
    have hlt : n < ts.length := (List.getElem?_eq_some_iff.mp ht).1
    split_ifs with hnm
    · rw [← hnm]
      exact getElem?_set_self hlt
    · exact getElem?_set_ne hnm

variable {advance : γ → τ → γ × τ} {I : γ → Prop} {g : γ} {ts : List τ} {n : ℕ} {J : τ → Prop}

/-- The shared invariant `I` and the invariant `J` of every goroutine with the shared state, through
one step: the goroutine that moves keeps its own and does not interfere with those of the others. -/
theorem advanceAt_interference {J : γ → τ → Prop}
    (hI : I g) (hJ : ∀ t ∈ ts, J g t)
    (hstep : ∀ t, ts[n]? = some t → J g t →
      I (advance g t).1 ∧ J (advance g t).1 (advance g t).2 ∧ ∀ u, J g u → J (advance g t).1 u) :
    I (advanceAt advance g ts n).1 ∧
      ∀ t ∈ (advanceAt advance g ts n).2, J (advanceAt advance g ts n).1 t := by
  unfold advanceAt
  cases ht : ts[n]? with
  | none => exact ⟨hI, hJ⟩
  | some t =>
    obtain ⟨hI', hself, hothers⟩ := hstep t ht (hJ t (mem_of_getElem? ht))
    refine ⟨hI', ?_⟩
    intro u hu
    rcases mem_or_eq_of_mem_set hu with hu | rfl
    · exact hothers u (hJ u hu)
    · exact hself

/-- The case where the goroutines' invariant does not depend on the shared state. -/
theorem advanceAt_invariant (hI : I g) (hJ : ∀ t ∈ ts, J t)
    (hstep : ∀ t, ts[n]? = some t → J t → I (advance g t).1 ∧ J (advance g t).2) :
    I (advanceAt advance g ts n).1 ∧ ∀ t ∈ (advanceAt advance g ts n).2, J t := by
  refine advanceAt_interference (J := fun _ => J) hI hJ fun t ht hJt => ?_
  obtain ⟨hI', hself⟩ := hstep t ht hJt
  exact ⟨hI', hself, fun u hu => hu⟩

theorem forall_mem_advanceAt_iff (hJ : ∀ t ∈ ts, J t) :
    (∀ t ∈ (advanceAt advance g ts n).2, J t) ↔ ∀ t, ts[n]? = some t → J (advance g t).2 := by
  unfold advanceAt
  cases ht : ts[n]? with
  | none =>
    refine iff_of_true hJ ?_
    intro t h
    cases h
  | some t =>
    constructor
    · rintro h u hu
      cases hu
      exact h _ (List.mem_set (List.getElem?_eq_some_iff.mp ht).1 _)
    · intro h u hu
      rcases mem_or_eq_of_mem_set hu with hu | rfl
      · exact hJ u hu
      · exact h t rfl

theorem forall_mem_spawn {t : τ} (hJ : ∀ u ∈ ts, J u) (ht : J t) : ∀ u ∈ ts ++ [t], J u := by
  intro u hu
  rcases mem_append.mp hu with hu | hu
  · exact hJ u hu
  · rwa [mem_singleton.mp hu]

theorem getElem?_spawn_eq_some {t u : τ} {m : ℕ} (h : (ts ++ [t])[m]? = some u) :
    ts[m]? = some u ∨ ts.length = m ∧ t = u := by
  rw [getElem?_append] at h
  split_ifs at h with hm
  · exact Or.inl h
  · rw [getElem?_singleton] at h
    split_ifs at h with hzero
    exact Or.inr ⟨by omega, Option.some.inj h⟩

/-! ## Totals -/

section
variable {M : Type*}

def total [AddCommMonoid M] (f : τ → M) (ts : List τ) : M := (ts.map f).sum

@[simp] theorem total_nil [AddCommMonoid M] (f : τ → M) : total f [] = 0 := rfl

theorem total_cons [AddCommMonoid M] (f : τ → M) (t : τ) (ts : List τ) :
    total f (t :: ts) = f t + total f ts := sum_cons

theorem total_concat [AddCommMonoid M] (f : τ → M) (ts : List τ) (t : τ) :
    total f (ts ++ [t]) = total f ts + f t := by
  simp [total]

theorem total_add [AddCommMonoid M] (f g : τ → M) (ts : List τ) :
    total (fun t => f t + g t) ts = total f ts + total g ts := sum_map_add

theorem total_eq_zero_iff [AddCommMonoid M] [PartialOrder M] [CanonicallyOrderedAdd M]
    [IsOrderedAddMonoid M] (f : τ → M) (ts : List τ) : total f ts = 0 ↔ ∀ t ∈ ts, f t = 0 := by
  rw [total, sum_eq_zero_iff, forall_mem_map]

theorem total_set [AddCommMonoid M] (f : τ → M) {t : τ} (h : ts[n]? = some t) (t' : τ) :
    total f (ts.set n t') + f t = total f ts + f t' := by
  induction ts generalizing n with
  | nil => cases h
  | cons u us ih =>
    cases n with
    | zero =>
      rw [getElem?_cons_zero] at h
      cases h
      rw [set_cons_zero, total_cons, total_cons]
      abel
    | succ =>
      rw [getElem?_cons_succ] at h
      rw [set_cons_succ, total_cons, total_cons, add_assoc, ih h, add_assoc]

/-- If each step adds as much to what the shared state and the goroutine hold as it adds to what has
come in, then what the shared state and all goroutines hold stays what has come in. -/
theorem advanceAt_balanced [AddCancelCommMonoid M] {h e : γ → M} {f : τ → M}
    (hstep : ∀ t, ts[n]? = some t →
      h (advance g t).1 + f (advance g t).2 + e g = h g + f t + e (advance g t).1)
    (hbalanced : h g + total f ts = e g) :
    h (advanceAt advance g ts n).1 + total f (advanceAt advance g ts n).2 =
      e (advanceAt advance g ts n).1 := by
  unfold advanceAt
  cases ht : ts[n]? with
  | none => exact hbalanced
  | some t =>
    dsimp only
    have hset := total_set f ht (advance g t).2
    have hkeep := hstep t ht
    refine add_right_cancel (b := f t + e g) ?_
    calc h (advance g t).1 + total f (ts.set n (advance g t).2) + (f t + e g)
        = h (advance g t).1 + (total f (ts.set n (advance g t).2) + f t) + e g := by abel
      _ = h (advance g t).1 + f (advance g t).2 + e g + total f ts := by rw [hset]; abel
      _ = e (advance g t).1 + (f t + (h g + total f ts)) := by rw [hkeep]; abel
      _ = e (advance g t).1 + (f t + e g) := by rw [hbalanced]

/-- A step that keeps the sum of what the shared state and the goroutine hold keeps the sum of what
the shared state and all goroutines hold. -/
theorem advanceAt_conserves [AddCancelCommMonoid M] {h : γ → M} {f : τ → M}
    (hstep : ∀ t, ts[n]? = some t → h (advance g t).1 + f (advance g t).2 = h g + f t) :
    h (advanceAt advance g ts n).1 + total f (advanceAt advance g ts n).2 = h g + total f ts :=
  advanceAt_balanced (e := fun _ => h g + total f ts) (fun t ht => by rw [hstep t ht]) rfl

end

end ArgusEdr.Pool
