import Mathlib

/-!
# Runs of an event-driven component

A component is a step function `step : σ → ι → σ`. A run is the list of the events that happened, and an
interleaving of several parties is one list of the events of all of them. `run` is the state it leads to,
and `AllSteps` says that every event of it meets a condition in the state it happens in, which is how runs
are restricted without changing the step function. `AllSteps.invariant` is the induction over runs.

`SomeStep` says that some event met a condition when it happened, and `gathered` is what the events put
out. `run_history_invariant` is for invariants that speak about the events so far.
-/

namespace ArgusEdr.Runs

open List

variable {σ ι : Type*} {step : σ → ι → σ}

def run (step : σ → ι → σ) (s : σ) (es : List ι) : σ := es.foldl step s

@[simp] theorem run_nil (s : σ) : run step s [] = s := rfl

@[simp] theorem run_cons (s : σ) (e : ι) (es : List ι) :
    run step s (e :: es) = run step (step s e) es := rfl

theorem run_append (s : σ) (es fs : List ι) :
    run step s (es ++ fs) = run step (run step s es) fs := by
  simp only [run, foldl_append]

theorem run_concat (s : σ) (es : List ι) (e : ι) :
    run step s (es ++ [e]) = step (run step s es) e := by
  rw [run_append, run_cons, run_nil]

/-- Every event of the run meets `P` in the state it happens in. -/
def AllSteps (step : σ → ι → σ) (P : σ → ι → Prop) : σ → List ι → Prop
  | _, [] => True
  | s, e :: es => P s e ∧ AllSteps step P (step s e) es

instance instDecidableAllSteps (P : σ → ι → Prop) [∀ s e, Decidable (P s e)] :
    (s : σ) → (es : List ι) → Decidable (AllSteps step P s es)
  | _, [] => .isTrue trivial
  | s, e :: es =>
    have := instDecidableAllSteps P (step s e) es
    inferInstanceAs (Decidable (P s e ∧ AllSteps step P (step s e) es))

namespace AllSteps

variable {P Q : σ → ι → Prop} {s : σ} {es fs : List ι}

@[simp] theorem nil : AllSteps step P s [] := trivial

variable {e : ι} {I : σ → Prop}

@[simp] theorem cons_iff :
    AllSteps step P s (e :: es) ↔ P s e ∧ AllSteps step P (step s e) es := Iff.rfl

theorem append_iff :
    AllSteps step P s (es ++ fs) ↔
      AllSteps step P s es ∧ AllSteps step P (run step s es) fs := by
  induction es generalizing s with
  | nil => simp
  | cons e es ih => simp only [cons_append, cons_iff, run_cons, ih, and_assoc]

theorem concat_iff :
    AllSteps step P s (es ++ [e]) ↔ AllSteps step P s es ∧ P (run step s es) e := by
  simp [append_iff]

theorem at_split {pre post : List ι} (h : AllSteps step P s (pre ++ e :: post)) :
    P (run step s pre) e :=
  (append_iff.mp h).2.1

theorem of_split (h : ∀ pre e post, es = pre ++ e :: post → P (run step s pre) e) :
    AllSteps step P s es := by
  induction es generalizing s with
  | nil => trivial
  | cons e es ih =>
    refine ⟨h [] e es rfl, ih ?_⟩
    intro pre f post hsplit
    exact h (e :: pre) f post (by rw [hsplit, cons_append])

theorem always : AllSteps step (fun _ _ => True) s es := of_split fun _ _ _ _ => trivial

/-- What holds at the start and is preserved by every step that meets the condition holds
at the end of every run whose steps all meet it. -/
theorem invariant (h : AllSteps step P s es) (h0 : I s)
    (hstep : ∀ s e, I s → P s e → I (step s e)) : I (run step s es) := by
  induction es generalizing s with
  | nil => exact h0
  | cons e es ih => exact ih h.2 (hstep s e h0 h.1)

theorem of_invariant (h : AllSteps step P s es) (h0 : I s)
    (hstep : ∀ s e, I s → P s e → I (step s e)) (hQ : ∀ s e, I s → P s e → Q s e) :
    AllSteps step Q s es := by
  induction es generalizing s with
  | nil => trivial
  | cons e es ih => exact ⟨hQ s e h0 h.1, ih h.2 (hstep s e h0 h.1)⟩

theorem congr {R : σ → ι → Prop} (h : AllSteps step P s es) (h0 : I s)
    (hstep : ∀ s e, I s → P s e → I (step s e)) (hiff : ∀ s e, I s → (Q s e ↔ R s e)) :
    AllSteps step Q s es ↔ AllSteps step R s es := by
  induction es generalizing s with
  | nil => exact Iff.rfl
  | cons e es ih =>
    rw [cons_iff, cons_iff, hiff s e h0, ih h.2 (hstep s e h0 h.1)]

theorem congr_while (h0 : I s) (hiff : ∀ s e, I s → (P s e ↔ Q s e))
    (hstep : ∀ s e, I s → Q s e → I (step s e)) : AllSteps step P s es ↔ AllSteps step Q s es := by
  induction es generalizing s with
  | nil => exact Iff.rfl
  | cons e es ih =>
    rw [cons_iff, cons_iff, hiff s e h0]
    exact and_congr_right fun hQ => ih (hstep s e h0 hQ)

/-- An invariant that a step keeps exactly if it meets `Q` holds all along a run exactly if every
step of the run meets it. -/
theorem forall_prefix_iff (h : AllSteps step P s es) (h0 : I s)
    (hiff : ∀ s e, I s → P s e → (I (step s e) ↔ Q s e)) :
    (∀ pre, pre <+: es → I (run step s pre)) ↔ AllSteps step Q s es := by
  induction es generalizing s with
  | nil => simp [h0]
  | cons e es ih =>
    rw [cons_iff, ← hiff s e h0 h.1]
    constructor
    · intro hall
      have hnext : I (step s e) := hall [e] (prefix_append [e] es)
      refine ⟨hnext, (ih h.2 hnext).mp fun pre hpre => ?_⟩
      exact hall (e :: pre) (prefix_cons_inj e |>.mpr hpre)
    · rintro ⟨hnext, hrest⟩ pre hpre
      cases pre with
      | nil => exact h0
      | cons f pre =>
        obtain ⟨rfl, hpre'⟩ := cons_prefix_cons.mp hpre
        exact (ih h.2 hnext).mpr hrest pre hpre'

theorem and (h : AllSteps step P s es) (h' : AllSteps step Q s es) :
    AllSteps step (fun s e => P s e ∧ Q s e) s es := by
  induction es generalizing s with
  | nil => trivial
  | cons e es ih => exact ⟨⟨h.1, h'.1⟩, ih h.2 h'.2⟩

theorem and_forall {R : ι → Prop} (h : AllSteps step P s es) (hes : ∀ e ∈ es, R e) :
    AllSteps step (fun s e => P s e ∧ R e) s es := by
  induction es generalizing s with
  | nil => trivial
  | cons e es ih =>
    rw [forall_mem_cons] at hes
    exact ⟨⟨h.1, hes.1⟩, ih h.2 hes.2⟩

/-- Events of which those that meet `Q` are not earlier than any event before them: along the run,
each of these is not earlier than the latest so far. -/
theorem of_pairwise {τ : Type*} [LinearOrder τ] {time : ι → τ} {Q : ι → Prop} {t : τ}
    (ht : ∀ e ∈ es, Q e → t ≤ time e) (h : es.Pairwise fun e f => Q f → time e ≤ time f) :
    AllSteps (fun t e => max t (time e)) (fun t e => Q e → t ≤ time e) t es := by
  induction es generalizing t with
  | nil => trivial
  | cons e es ih =>
    obtain ⟨hhead, htail⟩ := pairwise_cons.mp h
    refine ⟨ht e mem_cons_self, ih ?_ htail⟩
    intro f hf hq
    exact max_le (ht f (mem_cons_of_mem e hf) hq) (hhead f hf hq)

theorem exists_of_pairwise {τ : Type*} [LinearOrder τ] [Nonempty τ] {time : ι → τ} {Q : ι → Prop}
    (h : es.Pairwise fun e f => Q f → time e ≤ time f) :
    ∃ t, AllSteps (fun t e => max t (time e)) (fun t e => Q e → t ≤ time e) t es := by
  obtain ⟨t, ht⟩ : ∃ t, ∀ e ∈ es, t ≤ time e := by
    clear h
    induction es with
    | nil => exact ⟨Classical.arbitrary τ, by simp⟩
    | cons e es ih =>
      obtain ⟨t, ht⟩ := ih
      refine ⟨min (time e) t, forall_mem_cons.mpr ⟨min_le_left _ _, fun f hf => ?_⟩⟩
      exact (min_le_right _ _).trans (ht f hf)
  exact ⟨t, of_pairwise (fun e he _ => ht e he) h⟩

end AllSteps

variable {s : σ} {P : σ → ι → Prop} {es : List ι}

theorem run_invariant {I : σ → Prop} (h0 : I s) (hstep : ∀ s e, I s → I (step s e)) (es : List ι) :
    I (run step s es) := by
  induction es generalizing s with
  | nil => exact h0
  | cons e es ih => exact ih (hstep s e h0)

/-! ## Histories -/

def SomeStep (step : σ → ι → σ) (P : σ → ι → Prop) (s : σ) (es : List ι) : Prop :=
  ∃ pre e post, es = pre ++ e :: post ∧ P (run step s pre) e

theorem SomeStep.concat (h : SomeStep step P s es) (e : ι) : SomeStep step P s (es ++ [e]) := by
  obtain ⟨pre, f, post, rfl, hf⟩ := h
  exact ⟨pre, f, post ++ [e], by simp, hf⟩

theorem SomeStep.last {e : ι} (h : P (run step s es) e) : SomeStep step P s (es ++ [e]) :=
  ⟨es, e, [], rfl, h⟩

theorem run_history_invariant {I : List ι → σ → Prop} (h0 : I [] s)
    (hstep : ∀ es e, I es (run step s es) → I (es ++ [e]) (step (run step s es) e)) (es : List ι) :
    I es (run step s es) := by
  induction es using List.reverseRecOn with
  | nil => exact h0
  | append_singleton es e ih =>
    rw [run_concat]
    exact hstep es e ih

def gathered {ο : Type*} (out : σ → ι → List ο) (step : σ → ι → σ) : σ → List ι → List ο
  | _, [] => []
  | s, e :: es => out s e ++ gathered out step (step s e) es

theorem gathered_concat {ο : Type*} (out : σ → ι → List ο) (s : σ) (es : List ι) (e : ι) :
    gathered out step s (es ++ [e]) = gathered out step s es ++ out (run step s es) e := by
  induction es generalizing s with
  | nil => simp [gathered]
  | cons f fs ih => simp [gathered, ih]

theorem someStep_of_mem_gathered {ο : Type*} {out : σ → ι → List ο} {o : ο}
    (h : o ∈ gathered out step s es) : SomeStep step (fun s e => o ∈ out s e) s es := by
  induction es using List.reverseRecOn with
  | nil => cases h
  | append_singleton es e ih =>
    rw [gathered_concat, mem_append] at h
    obtain h | h := h
    · exact (ih h).concat e
    · exact ⟨es, e, [], rfl, h⟩

end ArgusEdr.Runs
