import ArgusEdr.Lib.Runs

/-!
# Caches that are never invalidated

A cache in front of a computation whose result changes with time. What it holds for a key is what the
first question about it computed (`getElem?_run_ask`), and an answer is right exactly if that still is
(`ask_eq_iff`). Written without looking, as by two readers that have both missed, it holds what was
written last (`getElem?_run_insert`).
-/

namespace ArgusEdr.Memo

open Runs

variable {κ ν : Type*}

/-! ## What was computed first, and last -/

section
variable [DecidableEq κ]

def first (pairs : List (κ × ν)) (k : κ) : Option ν :=
  pairs.findSome? fun a => if a.1 = k then some a.2 else none

def last (pairs : List (κ × ν)) (k : κ) : Option ν := first pairs.reverse k

theorem mem_of_first {pairs : List (κ × ν)} {k : κ} {v : ν} (h : first pairs k = some v) :
    (k, v) ∈ pairs := by
  obtain ⟨⟨k', v'⟩, ha, hpair⟩ := List.exists_of_findSome?_eq_some h
  split at hpair
  · next hk =>
    cases hpair
    exact hk ▸ ha
  · cases hpair

theorem first_append (pairs pairs' : List (κ × ν)) (k : κ) :
    first (pairs ++ pairs') k = (first pairs k).or (first pairs' k) := by
  simp [first]

theorem last_append (pairs pairs' : List (κ × ν)) (k : κ) :
    last (pairs ++ pairs') k = (last pairs' k).or (last pairs k) := by
  simp [last, first]

end

/-! ## A cache over a run -/

variable [Ord κ] [Std.TransOrd κ]

/-- The answer for a key whose value at the moment is `fresh`, and the cache after it. -/
def ask (cache : Std.ExtTreeMap κ ν) (k : κ) (fresh : ν) : Std.ExtTreeMap κ ν × ν :=
  match cache[k]? with
  | some v => (cache, v)
  | none => (cache.insert k fresh, fresh)

theorem ask_eq_iff (cache : Std.ExtTreeMap κ ν) (k : κ) (fresh : ν) :
    (ask cache k fresh).2 = fresh ↔ ∀ v, cache[k]? = some v → v = fresh := by
  unfold ask
  cases cache[k]? <;> simp

variable [Std.LawfulEqOrd κ] [DecidableEq κ]

theorem getElem?_ask (cache : Std.ExtTreeMap κ ν) (k k' : κ) (fresh : ν) :
    (ask cache k fresh).1[k']? = cache[k']?.or (first [(k, fresh)] k') := by
  unfold ask
  by_cases hk : k = k'
  · subst hk
    cases h : cache[k]? <;> simp [h, first]
  · cases h : cache[k]? <;> simp [hk, first, Std.ExtTreeMap.getElem?_insert]

section
variable {σ ι : Type*} {step : σ → ι → σ} (cache : σ → Std.ExtTreeMap κ ν)
  (out : σ → ι → Option (κ × ν)) {s : σ}

/-- The cache of a machine whose events each ask at most one question holds, for every key, what
the first question about it computed. -/
theorem getElem?_run_ask (h0 : cache s = ∅)
    (hask : ∀ s e a, out s e = some a → cache (step s e) = (ask (cache s) a.1 a.2).1)
    (hnone : ∀ s e, out s e = none → cache (step s e) = cache s) (es : List ι) (k : κ) :
    (cache (run step s es))[k]? = first (gathered (fun s e => (out s e).toList) step s es) k := by
  induction es using List.reverseRecOn with
  | nil => simp [h0, first, gathered]
  | append_singleton es e ih =>
    rw [run_concat, gathered_concat, first_append, ← ih]
    cases hout : out (run step s es) e with
    | none => simp [hnone _ _ hout, first]
    | some => rw [hask _ _ _ hout, getElem?_ask, Option.toList_some]

/-- The cache of a machine whose events each write at most one entry holds what was written
last. -/
theorem getElem?_run_insert (h0 : cache s = ∅)
    (hinsert : ∀ s e a, out s e = some a → cache (step s e) = (cache s).insert a.1 a.2)
    (hnone : ∀ s e, out s e = none → cache (step s e) = cache s) (es : List ι) (k : κ) :
    (cache (run step s es))[k]? = last (gathered (fun s e => (out s e).toList) step s es) k := by
  induction es using List.reverseRecOn with
  | nil => simp [h0, last, first, gathered]
  | append_singleton es e ih =>
    rw [run_concat, gathered_concat, last_append, ← ih]
    cases hout : out (run step s es) e with
    | none => simp [hnone _ _ hout, last, first]
    | some =>
      rw [hinsert _ _ _ hout, Std.ExtTreeMap.getElem?_insert]
      simp only [Std.compare_eq_iff_eq, Option.toList_some, last, first, List.reverse_singleton,
        List.findSome?_singleton]
      split_ifs <;> rfl

end

end ArgusEdr.Memo
