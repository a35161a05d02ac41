import ArgusEdr.Lib.Runs

/-!
# Machines that answer, and simulations between them

A machine is a step function `step : σ → ι → σ × ο`. `answers` are the answers along a run of requests,
`trace` the requests with them. Two machines of which one step keeps the states related and gives related
answers do so along every run (`simulation`). A machine that serves many parties answers one of them as a
machine of its own would, as long as the requests of the others leave the two related (`trace_filter`).
-/

namespace ArgusEdr.Simulation

open List

open Runs (run AllSteps)

variable {σ τ ι ο ο' : Type*}

def next (step : σ → ι → σ × ο) (s : σ) (i : ι) : σ := (step s i).1

def answers (step : σ → ι → σ × ο) : σ → List ι → List ο
  | _, [] => []
  | s, i :: is => (step s i).2 :: answers step (next step s i) is

@[simp] theorem answers_nil (step : σ → ι → σ × ο) (s : σ) : answers step s [] = [] := rfl

@[simp] theorem answers_cons (step : σ → ι → σ × ο) (s : σ) (i : ι) (is : List ι) :
    answers step s (i :: is) = (step s i).2 :: answers step (next step s i) is := rfl

variable {step : σ → ι → σ × ο} {R : σ → τ → Prop} {s : σ} {t : τ} {is : List ι} {ω : Type*}
  {small : τ → ι → τ × ο} {keep : ι → Bool}

/-- A step that keeps two machines related and gives related answers, wherever the request
meets `P`, does so along every run whose requests all meet it. -/
theorem simulation {step' : τ → ι → τ × ο'}
    {S : ο → ο' → Prop} {P : σ → ι → Prop}
    (hstep : ∀ s t i, R s t → P s i → R (next step s i) (next step' t i) ∧
      S (step s i).2 (step' t i).2)
    (h0 : R s t) (h : AllSteps (next step) P s is) :
    R (run (next step) s is) (run (next step') t is) ∧
      List.Forall₂ S (answers step s is) (answers step' t is) := by
  induction is generalizing s t with
  | nil => exact ⟨h0, .nil⟩
  | cons i is ih =>
    obtain ⟨hnext, hanswer⟩ := hstep s t i h0 h.1
    obtain ⟨hend, hrest⟩ := ih hnext h.2
    exact ⟨hend, .cons hanswer hrest⟩

/-! ## Requests with their answers -/

def trace (step : σ → ι → σ × ο) : σ → List ι → List (ι × ο)
  | _, [] => []
  | s, i :: is => (i, (step s i).2) :: trace step (next step s i) is

@[simp] theorem trace_nil (step : σ → ι → σ × ο) (s : σ) : trace step s [] = [] := rfl

@[simp] theorem trace_cons (step : σ → ι → σ × ο) (s : σ) (i : ι) (is : List ι) :
    trace step s (i :: is) = (i, (step s i).2) :: trace step (next step s i) is := rfl

theorem trace_append (step : σ → ι → σ × ο) (s : σ) (is js : List ι) :
    trace step s (is ++ js) = trace step s is ++ trace step (run (next step) s is) js := by
  induction is generalizing s with
  | nil => rfl
  | cons i is ih => rw [cons_append, trace_cons, trace_cons, cons_append, ih, Runs.run_cons]

theorem map_fst_trace (step : σ → ι → σ × ο) (s : σ) (is : List ι) :
    (trace step s is).map Prod.fst = is := by
  induction is generalizing s with
  | nil => rfl
  | cons i is ih => rw [trace_cons, map_cons, ih]

theorem map_snd_trace (step : σ → ι → σ × ο) (s : σ) (is : List ι) :
    (trace step s is).map Prod.snd = answers step s is := by
  induction is generalizing s with
  | nil => rfl
  | cons i is ih => rw [trace_cons, map_cons, ih, answers_cons]

theorem forall_mem_trace {Q : ι → ο → Prop} (h : ∀ s i, Q i (step s i).2) (s : σ) (is : List ι) :
    ∀ p ∈ trace step s is, Q p.1 p.2 := by
  induction is generalizing s with
  | nil => exact fun p hp => absurd hp not_mem_nil
  | cons i is ih => exact forall_mem_cons.mpr ⟨h s i, ih (next step s i)⟩

/-- A machine that, after each of some blocks of requests, takes the next request as it would at
the start, answers each block as it would at the start. -/
theorem trace_flatten {blocks : List (List ι)} (hne : [] ∉ blocks)
    (h : blocks.IsChain fun a b => ∀ i ∈ b.head?, step (run (next step) s a) i = step s i) :
    trace step s blocks.flatten = blocks.flatMap (trace step s) := by
  induction blocks with
  | nil => rfl
  | cons a blocks ih =>
    have hne' : [] ∉ blocks := fun hmem => hne (mem_cons_of_mem a hmem)
    rw [flatten_cons, trace_append, flatMap_cons, ← ih hne' h.tail]
    cases blocks with
    | nil => rfl
    | cons b blocks =>
      cases b with
      | nil => exact absurd mem_cons_self hne'
      | cons i b =>
        have hi : step (run (next step) s a) i = step s i := h.rel i rfl
        rw [flatten_cons, cons_append, trace_cons, trace_cons, next, hi]
        rfl

@[simp] theorem length_answers (step : σ → ι → σ × ο) (s : σ) (is : List ι) :
    (answers step s is).length = is.length := by
  induction is generalizing s with
  | nil => rfl
  | cons i is ih => rw [answers_cons, length_cons, length_cons, ih]

theorem answers_append (step : σ → ι → σ × ο) (s : σ) (is js : List ι) :
    answers step s (is ++ js) = answers step s is ++ answers step (run (next step) s is) js := by
  rw [← map_snd_trace, trace_append, map_append, map_snd_trace, map_snd_trace]

theorem answers_concat (step : σ → ι → σ × ο) (s : σ) (is : List ι) (i : ι) :
    answers step s (is ++ [i]) = answers step s is ++ [(step (run (next step) s is) i).2] :=
  answers_append step s is [i]

theorem trace_ne_nil (h : is ≠ []) : trace step s is ≠ [] := by
  intro hnil
  rw [← map_fst_trace step s is, hnil] at h
  exact h rfl

theorem getLast_trace_fst (step : σ → ι → σ × ο) (s : σ) (is : List ι)
    (h : trace step s is ≠ []) (h' : is ≠ []) : ((trace step s is).getLast h).1 = is.getLast h' := by
  have hlast := getLast_map (f := Prod.fst) (l := trace step s is)
    (by rwa [Ne, map_eq_nil_iff])
  rw [← hlast]
  congr 1
  exact map_fst_trace step s is

theorem head_trace_fst (step : σ → ι → σ × ο) (s : σ) (is : List ι)
    (h : trace step s is ≠ []) (h' : is ≠ []) : ((trace step s is).head h).1 = is.head h' := by
  cases is with
  | nil => exact absurd rfl h'
  | cons => rfl

/-- A machine that takes a request as it would at the start whenever the last request and this one
are not related by `r`: the trace falls into maximal runs of related requests as they do, and each
is answered as it would be at the start. -/
theorem splitBy_trace {r : ι → ι → Bool}
    (h : ∀ a (ha : a ≠ []) i, r (a.getLast ha) i = false → step (run (next step) s a) i = step s i)
    (is : List ι) :
    (trace step s is).splitBy (fun p q => r p.1 q.1) = (is.splitBy r).map (trace step s) := by
  obtain ⟨-, hne, hchain, hcut⟩ := splitBy_eq_iff.mp (rfl : is.splitBy r = is.splitBy r)
  rw [splitBy_eq_iff]
  refine ⟨?_, ?_, ?_, ?_⟩
  · rw [← flatMap_def, ← trace_flatten hne, flatten_splitBy]
    refine hcut.imp fun a b hab i hi => ?_
    obtain ⟨ha, hb, hr⟩ := hab
    rw [head?_eq_some_head hb, Option.mem_some_iff] at hi
    exact h a ha i (hi ▸ hr)
  · intro hmem
    obtain ⟨a, ha, hnil⟩ := mem_map.mp hmem
    exact trace_ne_nil (fun ha' => hne (ha' ▸ ha)) hnil
  · intro m hm
    obtain ⟨a, ha, rfl⟩ := mem_map.mp hm
    have hfst := hchain a ha
    rw [← map_fst_trace step s a, isChain_map] at hfst
    exact hfst
  · rw [isChain_map]
    refine hcut.imp fun a b hab => ?_
    obtain ⟨ha, hb, hr⟩ := hab
    refine ⟨trace_ne_nil ha, trace_ne_nil hb, ?_⟩
    rw [getLast_trace_fst step s a _ ha, head_trace_fst step s b _ hb]
    exact hr

theorem trace_eq_split {pre post : List (ι × ο)} {i : ι} {o : ο}
    (h : trace step s is = pre ++ (i, o) :: post) :
    ∃ is₁ is₂, is = is₁ ++ i :: is₂ ∧ pre = trace step s is₁ ∧
      o = (step (run (next step) s is₁) i).2 := by
  induction is generalizing s pre with
  | nil => simp at h
  | cons j is ih =>
    rw [trace_cons] at h
    cases pre with
    | nil =>
      obtain ⟨hhead, -⟩ := List.cons.inj h
      obtain ⟨rfl, rfl⟩ := Prod.mk.inj hhead
      exact ⟨[], is, rfl, rfl, rfl⟩
    | cons =>
      obtain ⟨rfl, htail⟩ := List.cons.inj h
      obtain ⟨is₁, is₂, rfl, rfl, rfl⟩ := ih htail
      exact ⟨j :: is₁, is₂, rfl, rfl, rfl⟩

/-! ## One part of a machine -/

/-- A machine that serves many parties at once (the keys of a table, the files of a disk) answers
one of them as a machine of its own would that sees the requests of that party only.

`keep` says which requests concern the party, and `view` what it sees of the answer. `R` relates the
whole machine to the one of the party; it may depend on a ghost state that follows the requests, such
as the latest time, and the requests are only required to meet `P` there. -/
theorem trace_filter {γ : Type*} {big : σ → ι → σ × ω}
    {ghost : γ → ι → γ} {P : γ → ι → Prop} {R : γ → σ → τ → Prop} {view : ω → ο}
    (hhit : ∀ g s t i, R g s t → P g i → keep i = true →
      R (ghost g i) (next big s i) (next small t i) ∧ view (big s i).2 = (small t i).2)
    (hmiss : ∀ g s t i, R g s t → P g i → keep i = false → R (ghost g i) (next big s i) t)
    {g : γ} (h0 : R g s t) (h : AllSteps ghost P g is) :
    ((trace big s is).filter fun p => keep p.1).map (fun p => (p.1, view p.2)) =
      trace small t (is.filter keep) := by
  induction is generalizing g s t with
  | nil => rfl
  | cons i is ih =>
    cases hkeep : keep i with
    | false =>
      rw [trace_cons, filter_cons_of_neg (by simp [hkeep]),
        filter_cons_of_neg (by simp [hkeep])]
      exact ih (hmiss g s t i h0 h.1 hkeep) h.2
    | true =>
      obtain ⟨hnext, hview⟩ := hhit g s t i h0 h.1 hkeep
      rw [filter_cons_of_pos hkeep, trace_cons, trace_cons, filter_cons_of_pos (by simpa),
        map_cons, hview, ih hnext h.2]

theorem run_filter {γ : Type*} {big : σ → ι → σ × ω}
    {ghost : γ → ι → γ} {P : γ → ι → Prop} {R : γ → σ → τ → Prop}
    (hhit : ∀ g s t i, R g s t → P g i → keep i = true →
      R (ghost g i) (next big s i) (next small t i))
    (hmiss : ∀ g s t i, R g s t → P g i → keep i = false → R (ghost g i) (next big s i) t)
    {g : γ} (h0 : R g s t) (h : AllSteps ghost P g is) :
    R (run ghost g is) (run (next big) s is) (run (next small) t (is.filter keep)) := by
  induction is generalizing g s t with
  | nil => exact h0
  | cons i is ih =>
    cases hkeep : keep i with
    | false =>
      rw [filter_cons_of_neg (by simp [hkeep])]
      exact ih (hmiss g s t i h0 h.1 hkeep) h.2
    | true =>
      rw [filter_cons_of_pos hkeep]
      exact ih (hhit g s t i h0 h.1 hkeep) h.2

/-- The case without a ghost state, where requests of others never disturb the two. -/
theorem trace_filter_of_frame {big : σ → ι → σ × ω}
    (keep : ι → Bool) (view : ω → ο)
    (hhit : ∀ s t i, R s t → keep i = true →
      R (next big s i) (next small t i) ∧ view (big s i).2 = (small t i).2)
    (hmiss : ∀ s t i, R s t → keep i = false → R (next big s i) t)
    (h0 : R s t) (is : List ι) :
    ((trace big s is).filter fun p => keep p.1).map (fun p => (p.1, view p.2)) =
      trace small t (is.filter keep) := by
  have hsteps : AllSteps (fun (_ : Unit) (_ : ι) => ()) (fun _ _ => True) () is :=
    AllSteps.always
  exact trace_filter (fun _ s t i h _ => hhit s t i h) (fun _ s t i h _ => hmiss s t i h) h0 hsteps

end ArgusEdr.Simulation
