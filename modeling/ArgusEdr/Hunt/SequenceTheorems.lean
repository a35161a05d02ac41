import ArgusEdr.Hunt.Printing
import ArgusEdr.Hunt.Run
import ArgusEdr.Lib.Subsequence

/-!
# What a sequence hunt finds

Seen for one match alone, `matchSequences` is a search for the first subsequence that passes the stages
(`Subsequence.search`): an event is found or not, or it ends the window (`exists_fate`). The loop that
compacts the matches in place loses and changes none (`advancePartials_eq`), so the chains of a group
are, in some order, what is found from each of its events (`perm_foundAll`).
-/

namespace ArgusEdr.Hunt

open List

open EventStore (Entry Lake)
open Go (Library)
open Model (Event Time)
open Subsequence (search searchFrom searchAll Passes First)

section
variable [Library] {α : Type} (event : α → Event) (q : SequenceQuery)

/-! ## One match -/

def SequenceQuery.tests : List (α → Bool) := q.stages.map fun st e => st.matches (event e)

/-- The window that starts at a time has not run out. -/
def SequenceQuery.near (start : Time) (e : α) : Bool := !q.expired start (event e).timestamp

/-- What becomes of a match under way when the events `es` follow. -/
def remaining (p : Partial α) (es : List α) : Option (List α) :=
  (search (q.near event p.start) ((q.tests event).drop p.stage) es).map (p.events ++ ·)

/-- The same, of a match an event has been shown to. -/
def Fate.remaining (es : List α) : Fate α → Option (List α)
  | .expired => none
  | .waiting p => Hunt.remaining event q p es
  | .complete chain => some chain

def Partial.Waits (p : Partial α) : Prop := p.stage < q.stages.length

variable {event q} {p : Partial α} {e : α} {ps open_ : List (Partial α)} {fs : List (Fate α)}

variable (event) in
theorem exists_fate (hp : p.Waits q) (e : α) :
    ∃ f, fate event q e p = some f ∧ (∀ es, remaining event q p (e :: es) = f.remaining event q es) ∧
      ∀ p', f = .waiting p' → p'.Waits q := by
  have hstage : q.stages[p.stage]? = some q.stages[p.stage] := getElem?_eq_getElem hp
  have hdrop : (q.tests event).drop p.stage =
      (fun e => q.stages[p.stage].matches (event e)) :: (q.tests event).drop (p.stage + 1) := by
    have hlen : p.stage < (q.tests event).length := by
      rw [SequenceQuery.tests, length_map]
      exact hp
    rw [drop_eq_getElem_cons hlen]
    refine congrArg (· :: _) ?_
    exact getElem_map ..
  have hremaining : ∀ es, remaining event q p (e :: es) =
      (if !q.near event p.start e then none
        else if q.stages[p.stage].matches (event e) then
          (search (q.near event p.start) ((q.tests event).drop (p.stage + 1)) es).map (e :: ·)
        else search (q.near event p.start) ((q.tests event).drop p.stage) es).map
        (p.events ++ ·) := by
    intro es
    rw [remaining, hdrop, search]
  unfold fate
  by_cases hexpired : q.expired p.start (event e).timestamp = true
  · refine ⟨.expired, if_pos hexpired, fun es => ?_, by simp⟩
    rw [hremaining, SequenceQuery.near, hexpired]
    rfl
  · rw [if_neg hexpired, hstage, Option.bind_eq_bind, Option.bind_some]
    rw [Bool.not_eq_true] at hexpired
    simp only [hremaining, SequenceQuery.near, hexpired, Bool.not_false, Bool.not_true,
      Bool.false_eq_true, if_false]
    by_cases hmatch : q.stages[p.stage].matches (event e) = true
    · simp only [hmatch, Bool.not_true, Bool.false_eq_true, if_false, if_true]
      by_cases hlast : p.stage + 1 = q.stages.length
      · have hend : (q.tests event).drop (p.stage + 1) = [] := by
          rw [drop_eq_nil_iff, SequenceQuery.tests, length_map]
          exact hlast.ge
        refine ⟨.complete (p.events ++ [e]), if_pos hlast, fun es => ?_, by simp⟩
        rw [hend, search]
        rfl
      · refine ⟨.waiting { p with events := p.events ++ [e], stage := p.stage + 1 }, if_neg hlast,
          fun es => ?_, ?_⟩
        · rw [Fate.remaining, remaining, Option.map_map]
          congr 1
          funext picks
          simp
        · rintro p' ⟨⟩
          exact lt_of_le_of_ne hp hlast
    · rw [Bool.not_eq_true] at hmatch
      simp only [hmatch, Bool.not_false, Bool.false_eq_true, if_false, if_true]
      refine ⟨.waiting p, rfl, fun es => rfl, ?_⟩
      rintro p' ⟨⟩
      exact hp

/-! ## The matches under way -/

def Fate.waiting? : Fate α → Option (Partial α)
  | .waiting p => some p
  | .expired | .complete _ => none

def Fate.complete? : Fate α → Option (List α)
  | .complete chain => some chain
  | .expired | .waiting _ => none

/-- The array after a round of the loop. -/
def Sweep.settle (s : Sweep α) : Fate α → Sweep α
  | .expired => s
  | .waiting p => { s with array := s.array.set s.kept p, kept := s.kept + 1 }
  | .complete chain => { s with done := s.done ++ [chain] }

theorem sweepRound_eq {s : Sweep α} {i : ℕ} {f : Fate α} (hread : s.array[i]? = some p)
    (hfate : fate event q e p = some f) : sweepRound event q e s i = some (s.settle f) := by
  rw [sweepRound, hread, Option.bind_eq_bind, Option.bind_some, hfate, Option.bind_eq_bind,
    Option.bind_some]
  cases f <;> rfl

/-- The loop over the rest of the array: what is kept comes to stand in front, and what has been
read already and not kept behind it. -/
theorem sweep_eq (h : List.Forall₂ (fun p f => fate event q e p = some f) ps fs)
    (ks gs : List (Partial α)) (done : List (List α)) :
    ∃ gs', (List.range' (ks.length + gs.length) ps.length).foldlM (sweepRound event q e)
        { array := ks ++ (gs ++ ps), kept := ks.length, done } =
      some { array := (ks ++ fs.filterMap Fate.waiting?) ++ gs'
             kept := (ks ++ fs.filterMap Fate.waiting?).length
             done := done ++ fs.filterMap Fate.complete? } := by
  induction h generalizing ks gs done with
  | nil => exact ⟨gs, by simp⟩
  | @cons p f ps fs hf _ ih =>
    have hread : (ks ++ (gs ++ p :: ps))[ks.length + gs.length]? = some p := by
      rw [getElem?_append_right (by omega), getElem?_append_right (by omega)]
      simp
    have harray : ks ++ (gs ++ p :: ps) = ks ++ ((gs ++ [p]) ++ ps) := by simp
    have hindex : ks.length + gs.length + 1 = ks.length + (gs ++ [p]).length := by
      rw [length_append, length_singleton]
      omega
    rw [length_cons, range'_succ, foldlM_cons, sweepRound_eq hread hf,
      Option.bind_eq_bind, Option.bind_some]
    cases f with
    | expired =>
      rw [Sweep.settle, hindex, harray]
      exact ih ks (gs ++ [p]) done
    | waiting p' =>
      -- the slot behind what is kept was read before, if only in this round
      obtain ⟨g, gs', hgs⟩ := exists_cons_of_ne_nil (append_ne_nil_of_right_ne_nil gs
        (cons_ne_nil p []))
      have hset : (ks ++ (gs ++ p :: ps)).set ks.length p' = (ks ++ [p']) ++ (gs' ++ ps) := by
        rw [harray, hgs, set_append_right _ _ le_rfl, Nat.sub_self]
        simp
      have hlen : ks.length + gs.length + 1 = (ks ++ [p']).length + gs'.length := by
        rw [hindex, hgs, length_append, length_cons, length_singleton]
        omega
      have hkept : ks.length + 1 = (ks ++ [p']).length := by
        rw [length_append, length_singleton]
      obtain ⟨gs'', hrest⟩ := ih (ks ++ [p']) gs' done
      refine ⟨gs'', ?_⟩
      simp only [Sweep.settle]
      rw [hset, hlen, hkept, hrest]
      simp [filterMap_cons, Fate.waiting?, Fate.complete?]
    | complete chain =>
      obtain ⟨gs', hrest⟩ := ih ks (gs ++ [p]) (done ++ [chain])
      refine ⟨gs', ?_⟩
      simp only [Sweep.settle]
      rw [hindex, harray, hrest]
      simp [filterMap_cons, Fate.waiting?, Fate.complete?]

theorem advancePartials_eq (h : List.Forall₂ (fun p f => fate event q e p = some f) open_ fs)
    (done : List (List α)) :
    advancePartials event q open_ e done =
      some (fs.filterMap Fate.waiting?, done ++ fs.filterMap Fate.complete?) := by
  obtain ⟨gs, hsweep⟩ := sweep_eq h [] [] done
  simp only [nil_append, length_nil, Nat.add_zero] at hsweep
  rw [advancePartials, range_eq_range', hsweep]
  simp

variable (event) in
theorem exists_fates (hps : ∀ p ∈ ps, p.Waits q) (e : α) :
    ∃ fs, List.Forall₂ (fun p f => fate event q e p = some f) ps fs ∧
      List.Forall₂ (fun p f => ∀ es, remaining event q p (e :: es) = f.remaining event q es) ps fs ∧
      ∀ p ∈ fs.filterMap Fate.waiting?, p.Waits q := by
  induction ps with
  | nil => exact ⟨[], .nil, .nil, by simp⟩
  | cons p ps ih =>
    obtain ⟨hp, hps⟩ := forall_mem_cons.mp hps
    obtain ⟨f, hfate, hremaining, hwaits⟩ := exists_fate event hp e
    obtain ⟨fs, hfates, hremainings, hall⟩ := ih hps
    refine ⟨f :: fs, .cons hfate hfates, .cons hremaining hremainings, fun p' hp' => ?_⟩
    obtain ⟨f', hf', hwaiting⟩ := mem_filterMap.mp hp'
    cases mem_cons.mp hf' with
    | inl heq =>
      cases f' with
      | waiting =>
        cases hwaiting
        exact hwaits p' heq.symm
      | expired | complete => cases hwaiting
    | inr hmem => exact hall p' (mem_filterMap.mpr ⟨f', hmem, hwaiting⟩)

theorem perm_remaining
    (h : List.Forall₂
      (fun p f => ∀ es, remaining event q p (e :: es) = f.remaining event q es) ps fs)
    (es : List α) :
    (ps.filterMap fun p => remaining event q p (e :: es)).Perm
      (fs.filterMap Fate.complete? ++
        (fs.filterMap Fate.waiting?).filterMap fun p => remaining event q p es) := by
  induction h with
  | nil => rfl
  | @cons p f ps fs hf _ ih =>
    simp only [filterMap_cons, hf es]
    cases f with
    | expired => exact ih
    | complete chain => exact ih.cons chain
    | waiting p' =>
      simp only [Fate.remaining, Fate.waiting?, Fate.complete?, filterMap_cons]
      cases remaining event q p' es with
      | none => exact ih
      | some chain => exact (ih.cons chain).trans perm_middle.symm

variable (event q) in
def found (e : α) (es : List α) : Option (List α) :=
  searchFrom (fun x => q.near event (event x).timestamp)
    (fun x => q.stages.head?.any fun st => st.matches (event x)) (q.tests event).tail e es

variable (event q) in
def foundAll (es : List α) : List (List α) :=
  searchAll (fun x => q.near event (event x).timestamp)
    (fun x => q.stages.head?.any fun st => st.matches (event x)) (q.tests event).tail es

theorem foundAll_cons (e : α) (es : List α) :
    foundAll event q (e :: es) = (found event q e es).toList ++ foundAll event q es := rfl

variable (event) in
theorem exists_matchRound (hstages : 2 ≤ q.stages.length) (hopen : ∀ p ∈ open_, p.Waits q)
    (done : List (List α)) (e : α) :
    ∃ open' done', matchRound event q (open_, done) e = some (open', done') ∧
      (∀ p ∈ open', p.Waits q) ∧
      ∀ es, (done' ++ open'.filterMap fun p => remaining event q p es).Perm
        (done ++ ((open_.filterMap fun p => remaining event q p (e :: es)) ++
          (found event q e es).toList)) := by
  obtain ⟨fs, hfates, hremainings, hwaits⟩ := exists_fates event hopen e
  obtain ⟨first, stages, hfirst⟩ := exists_cons_of_length_pos (Nat.zero_lt_of_lt hstages)
  have hhead : q.stages[0]? = some first := by rw [hfirst]; rfl
  have hround : ∀ es, ((done ++ fs.filterMap Fate.complete?) ++
      (fs.filterMap Fate.waiting?).filterMap fun p => remaining event q p es).Perm
      (done ++ open_.filterMap fun p => remaining event q p (e :: es)) := by
    intro es
    rw [append_assoc]
    exact (perm_remaining hremainings es).symm.append_left done
  have hfound : ∀ es, found event q e es = if first.matches (event e) then
      remaining event q { events := [e], stage := 1, start := (event e).timestamp } es
      else none := by
    intro es
    rw [found, searchFrom, hfirst, head?_cons, Option.any_some, ← drop_one]
    rfl
  rw [matchRound, advancePartials_eq hfates, hhead]
  simp only [Option.bind_eq_bind, Option.bind_some]
  by_cases hmatch : first.matches (event e) = true
  · refine ⟨_, _, if_pos hmatch, ?_, fun es => ?_⟩
    · refine forall_mem_append.mpr ⟨hwaits, forall_mem_singleton.mpr ?_⟩
      exact hstages
    · have hnew : ([{ events := [e], stage := 1, start := (event e).timestamp }] :
          List (Partial α)).filterMap (fun p => remaining event q p es) =
          (found event q e es).toList := by
        rw [hfound, if_pos hmatch, filterMap_cons]
        cases remaining event q _ es with
        | none | some => rfl
      rw [filterMap_append, hnew, ← append_assoc, ← append_assoc]
      exact (hround es).append_right _
  · refine ⟨_, _, if_neg hmatch, hwaits, fun es => ?_⟩
    rw [hfound, if_neg hmatch, Option.toList_none, append_nil]
    exact hround es

variable (event) in
theorem perm_foundAll (hstages : 2 ≤ q.stages.length) (group : List α) :
    ∃ done, matchSequences event q group = some done ∧ done.Perm (foundAll event q group) := by
  have hrun : ∀ (es : List α) (open_ : List (Partial α)) (done : List (List α)),
      (∀ p ∈ open_, p.Waits q) → ∃ open' done',
        es.foldlM (matchRound event q) (open_, done) = some (open', done') ∧
        done'.Perm (done ++ ((open_.filterMap fun p => remaining event q p es) ++
          foundAll event q es)) := by
    intro es
    induction es with
    | nil =>
      intro open_ done hopen
      have hnone : (open_.filterMap fun p => remaining event q p []) = [] := by
        refine filterMap_eq_nil_iff.mpr fun p hp => ?_
        have hdrop : (q.tests event).drop p.stage ≠ [] := by
          rw [Ne, drop_eq_nil_iff, SequenceQuery.tests, length_map, not_le]
          exact hopen p hp
        obtain ⟨t, ts, hts⟩ := exists_cons_of_ne_nil hdrop
        rw [remaining, hts, search]
        rfl
      refine ⟨open_, done, rfl, ?_⟩
      rw [hnone, foundAll, searchAll, append_nil, append_nil]
    | cons e es ih =>
      intro open_ done hopen
      obtain ⟨open', done', hround, hwaits, hperm⟩ :=
        exists_matchRound event hstages hopen done e
      obtain ⟨open'', done'', hrest, hperm'⟩ := ih open' done' hwaits
      refine ⟨open'', done'', ?_, hperm'.trans ?_⟩
      · rw [foldlM_cons, hround]
        exact hrest
      · rw [← append_assoc]
        refine ((hperm es).append_right _).trans (Perm.of_eq ?_)
        rw [foundAll_cons, append_assoc, append_assoc]
  obtain ⟨open', done, hdone, hperm⟩ := hrun group [] [] (by simp)
  exact ⟨done, by rw [matchSequences, hdone]; rfl, hperm⟩

variable (event q) in
theorem foundAll_map {β : Type} (f : β → α) (es : List β) :
    foundAll event q (es.map f) = (foundAll (event ∘ f) q es).map (List.map f) := by
  have htests : (q.tests event).tail.map (· ∘ f) = (q.tests (event ∘ f)).tail := by
    rw [SequenceQuery.tests, SequenceQuery.tests, map_tail, map_map]
    rfl
  rw [foundAll, Subsequence.searchAll_map, htests]
  rfl

/-! ## Positions -/

/-- No more time than the window lies between the start and another time. -/
def SequenceQuery.InWindow (q : SequenceQuery) (start t : Time) : Prop :=
  0 < q.within → Time.sub t start ≤ q.within

theorem near_iff {start : Time} :
    q.near event start e = true ↔ q.InWindow start (event e).timestamp := by
  simp [SequenceQuery.near, SequenceQuery.expired, SequenceQuery.InWindow, imp_iff_not_or]

variable (event q) in
/-- A choice of positions at which the events match the stages in order, within the window of the
first. -/
structure IsChain (group : List α) (picks : List (Fin group.length)) : Prop where
  increasing : picks.Pairwise (· < ·)
  stages : List.Forall₂ (fun (st : Stage) i => st.matches (event group[i]) = true) q.stages picks
  window : ∀ first ∈ picks.head?, ∀ i ∈ picks,
    q.InWindow (event group[first]).timestamp (event group[i]).timestamp

variable (event q) in
/-- Each event of the chain is the first behind the one before that matches its stage. -/
def TakesEarliest (group : List α) (picks : List (Fin group.length)) : Prop :=
  ∀ k st i i' j, q.stages[k + 1]? = some st → picks[k]? = some i → picks[k + 1]? = some i' →
    i < j → j < i' → st.matches (event group[j]) = false

section
variable {group : List α} {before after : List (Fin group.length)} {i : Fin group.length}

omit [Library] in
theorem mem_after_iff (hsplit : List.finRange group.length = before ++ i :: after)
    {j : Fin group.length} : j ∈ after ↔ i < j := by
  have hsorted := sortedLT_finRange group.length |>.pairwise
  rw [hsplit] at hsorted
  obtain ⟨-, hafter, hcross⟩ := pairwise_append.mp hsorted
  constructor
  · exact (pairwise_cons.mp hafter).1 j
  · intro hij
    have hj : j ∈ before ++ i :: after := hsplit ▸ mem_finRange j
    cases mem_append.mp hj with
    | inl hbefore => exact absurd (hcross j hbefore i mem_cons_self) hij.asymm
    | inr hrest =>
      cases mem_cons.mp hrest with
      | inl heq => exact absurd heq hij.ne'
      | inr hmem => exact hmem

omit [Library] in
theorem pairwise_after (hsplit : List.finRange group.length = before ++ i :: after) :
    (i :: after).Pairwise (· < ·) := by
  have hsorted := sortedLT_finRange group.length |>.pairwise
  rw [hsplit] at hsorted
  exact (pairwise_append.mp hsorted).2.1

variable {picks : List (Fin group.length)}

theorem isChain_of_found (hsplit : List.finRange group.length = before ++ i :: after)
    (h : found (fun j : Fin group.length => event group[j]) q i after = some picks) :
    IsChain event q group picks ∧ TakesEarliest event q group picks := by
  have hsorted := pairwise_after hsplit
  rw [found, searchFrom] at h
  split at h
  · next hfirst =>
    obtain ⟨rest, hsearch, rfl⟩ := Option.map_eq_some_iff.mp h
    obtain ⟨hsub, htests, hnear⟩ := Subsequence.passes_of_search hsearch
    cases hstages : q.stages with
    | nil =>
      rw [hstages] at hfirst
      cases hfirst
    | cons first stages =>
      rw [hstages] at hfirst
      have htests_cons : q.tests (fun j : Fin group.length => event group[j]) =
          (fun j => first.matches (event group[j])) ::
            stages.map fun st j => st.matches (event group[j]) := by
        rw [SequenceQuery.tests, hstages, map_cons]
      rw [htests_cons, tail_cons] at hsearch htests
      refine ⟨⟨?_, ?_, ?_⟩, ?_⟩
      · exact hsorted.sublist (hsub.cons_cons i)
      · rw [hstages]
        exact .cons hfirst (forall₂_map_left_iff.mp htests)
      · rintro start ⟨⟩ j hj
        cases mem_cons.mp hj with
        | inl heq =>
          rw [heq, SequenceQuery.InWindow, Time.sub_self]
          exact le_of_lt
        | inr hmem => exact near_iff.mp (hnear j hmem)
      · intro k st j₁ j₂ j hst hj₁ hj₂ hlo hhi
        have hpicks := First.take (t := fun j => first.matches (event group[j])) hfirst
          (Subsequence.first_of_search hsearch)
        have hij : i < j := by
          cases mem_cons.mp (mem_of_getElem? hj₁) with
          | inl heq => exact heq ▸ hlo
          | inr hmem => exact ((pairwise_cons.mp hsorted).1 _ (hsub.subset hmem)).trans hlo
        have hmem : j ∈ i :: after := mem_cons_of_mem i ((mem_after_iff hsplit).mpr hij)
        refine hpicks.gap (t := fun j => st.matches (event group[j])) hsorted hj₁ hj₂ ?_ hmem hlo hhi
        rw [hstages] at hst
        rw [← map_cons (f := fun (st : Stage) j => st.matches (event group[j])),
          getElem?_map, hst]
        rfl
  · cases h

theorem exists_found (hordered : group.Pairwise fun a b => (event a).timestamp ≤ (event b).timestamp)
    (hsplit : List.finRange group.length = before ++ i :: after)
    (h : IsChain event q group picks) (hhead : picks.head? = some i) :
    ∃ chain, found (fun j : Fin group.length => event group[j]) q i after = some chain := by
  obtain ⟨hincreasing, hstages, hwindow⟩ := h
  cases picks with
  | nil => cases hhead
  | cons j picks =>
    obtain rfl : j = i := Option.some.inj hhead
    cases hq : q.stages with
    | nil =>
      rw [hq] at hstages
      cases hstages
    | cons first stages =>
      rw [hq] at hstages
      obtain ⟨hfirst, hstages⟩ := forall₂_cons.mp hstages
      obtain ⟨hbehind, hincreasing⟩ := pairwise_cons.mp hincreasing
      obtain ⟨-, hafter⟩ := pairwise_cons.mp (pairwise_after hsplit)
      have hsub : picks.Sublist after := by
        have hsubset : picks ⊆ after := fun k hk => (mem_after_iff hsplit).mpr (hbehind k hk)
        exact sublist_of_subperm_of_pairwise
          (subperm_of_subset (hincreasing.imp ne_of_lt) hsubset) hincreasing hafter
      have htimes : ∀ k l : Fin group.length, k < l →
          (event group[k]).timestamp ≤ (event group[l]).timestamp := fun k l hkl =>
        pairwise_iff_getElem.mp hordered k l k.isLt l.isLt hkl
      have hnear : after.Pairwise fun k l =>
          q.near (fun j : Fin group.length => event group[j]) (event group[j]).timestamp l = true →
          q.near (fun j : Fin group.length => event group[j]) (event group[j]).timestamp k = true := by
        refine hafter.imp fun {k l} hkl => ?_
        rw [near_iff, near_iff]
        intro hlate hpos
        exact (Time.sub_le_sub (htimes k l hkl) le_rfl).trans (hlate hpos)
      have hpasses : Passes (q.near (fun j : Fin group.length => event group[j])
          (event group[j]).timestamp) (stages.map fun st k => st.matches (event group[k])) after
          picks := by
        refine ⟨hsub, forall₂_map_left_iff.mpr hstages, fun k hk => ?_⟩
        exact near_iff.mpr (hwindow j rfl k (mem_cons_of_mem j hk))
      obtain ⟨rest, hrest⟩ := Subsequence.exists_search hnear hpasses
      refine ⟨j :: rest, ?_⟩
      rw [found, searchFrom, hq, head?_cons, Option.any_some, if_pos hfirst,
        SequenceQuery.tests, hq, map_cons, tail_cons, hrest]
      rfl

end

variable (event) in
theorem exists_positions (hstages : 2 ≤ q.stages.length) (group : List α) :
    ∃ chains : List (List (Fin group.length)),
      matchSequences event q group = some (chains.map fun picks => picks.map group.get) ∧
      chains.Perm (foundAll (fun j : Fin group.length => event group[j]) q
        (List.finRange group.length)) := by
  obtain ⟨done, hdone, hperm⟩ := perm_foundAll event hstages group
  have hgroup := foundAll_map event q group.get (List.finRange group.length)
  rw [map_get_finRange] at hgroup
  rw [hgroup] at hperm
  obtain ⟨chains, rfl, hchains⟩ := (congrFun₂ (eq_map_comp_perm _) done _).mpr hperm
  exact ⟨chains, hdone, hchains⟩

theorem isChain_of_mem_foundAll {group : List α} {picks : List (Fin group.length)}
    (h : picks ∈ foundAll (fun j : Fin group.length => event group[j]) q
      (List.finRange group.length)) : IsChain event q group picks := by
  obtain ⟨before, i, after, hsplit, hfound⟩ := Subsequence.mem_searchAll h
  exact (isChain_of_found hsplit hfound).1

/-- The chains of a group of events in the order of time, for any sequence query: each is a chain,
and from every event at which one starts there is exactly one, which takes the earliest match of
each stage. -/
theorem matchSequences_chains {cls : Go.Classes} {source : String}
    (hq : compile cls source = .ok (.sequence q)) {group : List α}
    (hordered : group.Pairwise fun a b => (event a).timestamp ≤ (event b).timestamp) :
    ∃ chains : List (List (Fin group.length)),
      matchSequences event q group = some (chains.map fun picks => picks.map group.get) ∧
      (∀ picks ∈ chains, IsChain event q group picks) ∧
      ∀ i : Fin group.length,
        ((∃ picks, IsChain event q group picks ∧ picks.head? = some i) →
          ∃ picks, IsChain event q group picks ∧ TakesEarliest event q group picks ∧
            (chains.filter fun picks => picks.head? = some i) = [picks]) ∧
        ((¬∃ picks, IsChain event q group picks ∧ picks.head? = some i) →
          (chains.filter fun picks => picks.head? = some i) = []) := by
  obtain ⟨chains, hchains, hperm⟩ := exists_positions event (two_le_stages_of_compile hq) group
  refine ⟨chains, hchains, fun picks hpicks => isChain_of_mem_foundAll (hperm.mem_iff.mp hpicks),
    fun i => ?_⟩
  obtain ⟨before, after, hsplit⟩ := append_of_mem (mem_finRange i)
  have hfilter : (chains.filter fun picks => picks.head? = some i).Perm
      (found (fun j : Fin group.length => event group[j]) q i after).toList := by
    refine (hperm.filter _).trans (Perm.of_eq ?_)
    rw [foundAll, hsplit]
    exact Subsequence.filter_head_searchAll (hsplit ▸ nodup_finRange group.length)
  constructor
  · rintro ⟨picks, hpicks, hhead⟩
    obtain ⟨chain, hchain⟩ := exists_found hordered hsplit hpicks hhead
    obtain ⟨hvalid, hearliest⟩ := isChain_of_found hsplit hchain
    rw [hchain, Option.toList_some, perm_singleton] at hfilter
    exact ⟨chain, hvalid, hearliest, hfilter⟩
  · intro hnone
    cases hfound : found (fun j : Fin group.length => event group[j]) q i after with
    | none =>
      rw [hfound, Option.toList_none, perm_nil] at hfilter
      exact hfilter
    | some chain =>
      exact absurd ⟨chain, (isChain_of_found hsplit hfound).1,
        Subsequence.head?_of_searchFrom hfound⟩ hnone

end

/-! ## Hunts over the lake -/

section
variable [Library] {q : SequenceQuery}

/-- The group of a key are the events with that key, in their order. -/
theorem getD_groupBy (entries : List Entry) (key : String) :
    (q.groupBy entries).getD key [] =
      entries.filter fun entry => q.groupKey entry.event = some key := by
  induction entries using List.reverseRecOn with
  | nil => rfl
  | append_singleton entries entry ih =>
    rw [SequenceQuery.groupBy, foldl_append, foldl_cons, foldl_nil,
      filter_append, ← ih, ← SequenceQuery.groupBy]
    cases hkey : q.groupKey entry.event with
    | none => simp [hkey]
    | some key' =>
      by_cases heq : key' = key
      · simp [hkey, heq, Std.ExtTreeMap.getD_eq_getD_getElem?]
      · simp [hkey, heq, Std.ExtTreeMap.getD_alter]

/-- What a sequence hunt reports: the events of one group that match the stages, one after the
other, within the window of the first. -/
structure Reported (q : SequenceQuery) (chain : List Entry) : Prop where
  stages : List.Forall₂ (fun (st : Stage) entry => st.matches entry.event = true) q.stages chain
  ordered : chain.Pairwise fun a b => a.time ≤ b.time
  group : ∃ key, ∀ entry ∈ chain, q.groupKey entry.event = some key
  window : ∀ first ∈ chain.head?, ∀ entry ∈ chain, q.InWindow first.time entry.time

theorem IsChain.reported {entries : List Entry} {key : String}
    (hordered : entries.Pairwise fun a b => a.time ≤ b.time)
    (hgroup : ∀ entry ∈ entries, q.groupKey entry.event = some key)
    {picks : List (Fin entries.length)} (h : IsChain Entry.event q entries picks) :
    Reported q (picks.map entries.get) where
  stages := forall₂_map_right_iff.mpr h.stages
  ordered := by
    refine pairwise_map.mpr (h.increasing.imp fun {i j} hij => ?_)
    exact pairwise_iff_getElem.mp hordered i j i.isLt j.isLt hij
  group := by
    refine ⟨key, forall_mem_map.mpr fun i _ => ?_⟩
    exact hgroup _ (get_mem entries i)
  window := by
    intro first hfirst
    rw [List.head?_map] at hfirst
    obtain ⟨i, hi, rfl⟩ := Option.map_eq_some_iff.mp hfirst
    exact forall_mem_map.mpr fun j hj => h.window i hi j hj

/-- The events that a hunt over a memory lake puts into the group of a key. -/
def SequenceQuery.members (q : SequenceQuery) (u : Go.Unicode) (m : EventStore.Memory) (key : String) :
    List Entry :=
  (m.query u { limit := scanCap, ascending := true }).filter fun entry =>
    q.groupKey entry.event = some key

theorem pairwise_members (u : Go.Unicode) (m : EventStore.Memory) (key : String) :
    (q.members u m key).Pairwise fun a b => a.time ≤ b.time := by
  have : Std.Total (EventStore.Memory.notAfter true) := ⟨fun a b => le_total a.time b.time⟩
  have : IsTrans Entry (EventStore.Memory.notAfter true) := ⟨fun _ _ _ => le_trans⟩
  exact ((pairwise_insertionSort _ _).sublist (take_sublist _ _)).filter _

/-- From every event at which a chain of the group starts, one is found. -/
theorem exists_mem_foundAll {group : List Entry}
    (hordered : group.Pairwise fun a b => a.time ≤ b.time) (hstages : 2 ≤ q.stages.length)
    {picks : List (Fin group.length)} (h : IsChain Entry.event q group picks) :
    ∃ chain ∈ foundAll (fun j : Fin group.length => group[j].event) q (List.finRange group.length),
      chain.head? = picks.head? := by
  have hlength := h.stages.length_eq
  rcases exists_cons_of_length_pos (show 0 < picks.length by omega) with ⟨i, rest, rfl⟩
  rcases append_of_mem (mem_finRange i) with ⟨before, after, hsplit⟩
  rcases exists_found hordered hsplit h rfl with ⟨chain, hchain⟩
  refine ⟨chain, ?_, Subsequence.head?_of_searchFrom hchain⟩
  rw [foundAll, hsplit]
  apply mem_of_mem_filter (p := fun picks => picks.head? = some i)
  rw [Subsequence.filter_head_searchAll (hsplit ▸ nodup_finRange group.length)]
  exact Option.mem_toList.mpr hchain

/-- A sequence hunt over a memory lake returns. Everything it reports is a chain, and from every event
at which a chain of a group starts it reports one. -/
theorem run_memory {cls : Go.Classes} {source : String}
    (hq : compile cls source = .ok (.sequence q)) (u : Go.Unicode) (m : EventStore.Memory)
    (order : List String) :
    ∃ chains, q.run u (.memory m) order = some chains ∧ (∀ chain ∈ chains, Reported q chain) ∧
      ∀ key ∈ order, ∀ picks, IsChain Entry.event q (q.members u m key) picks →
        ∃ chain ∈ chains, chain.head? = (picks.map (q.members u m key).get).head? := by
  have hstages := two_le_stages_of_compile hq
  have hgroup : ∀ key, ∃ chains, matchSequences Entry.event q
      ((q.groupBy (m.query u { limit := scanCap, ascending := true })).getD key []) = some chains ∧
      (∀ chain ∈ chains, Reported q chain) ∧
      ∀ picks, IsChain Entry.event q (q.members u m key) picks →
        ∃ chain ∈ chains, chain.head? = (picks.map (q.members u m key).get).head? := by
    intro key
    rw [getD_groupBy]
    have hordered := pairwise_members (q := q) u m key
    rcases exists_positions Entry.event hstages (q.members u m key) with ⟨chains, hchains, hperm⟩
    refine ⟨_, hchains, forall_mem_map.mpr fun picks hpicks => ?_, fun picks hpicks => ?_⟩
    · have hkey : ∀ entry ∈ q.members u m key, q.groupKey entry.event = some key :=
        fun entry hentry => of_decide_eq_true (mem_filter.mp hentry).2
      exact (isChain_of_mem_foundAll (hperm.mem_iff.mp hpicks)).reported hordered hkey
    · rcases exists_mem_foundAll hordered hstages hpicks with ⟨chain, hmem, hhead⟩
      refine ⟨_, mem_map_of_mem (hperm.mem_iff.mpr hmem), ?_⟩
      rw [List.head?_map, List.head?_map, hhead]
  choose chains hchains hreported hcomplete using hgroup
  refine ⟨(order.map chains).flatten, ?_, fun chain hchain => ?_, fun key hkey picks hpicks => ?_⟩
  · have hmap : order.mapM (fun key => matchSequences Entry.event q
        ((q.groupBy (m.query u { limit := scanCap, ascending := true })).getD key [])) =
        some (order.map chains) := by
      simp only [hchains]
      exact mapM_pure ..
    exact congrArg (· >>= fun chains => some chains.flatten) hmap
  · rcases mem_flatten.mp hchain with ⟨_, hmem, hchain⟩
    rcases mem_map.mp hmem with ⟨key, -, rfl⟩
    exact hreported key chain hchain
  · rcases hcomplete key picks hpicks with ⟨chain, hmem, hhead⟩
    exact ⟨chain, mem_flatten.mpr ⟨chains key, mem_map_of_mem hkey, hmem⟩, hhead⟩

end

/-- `sequence within 5s : exec ; connect`, over the plain library. -/
def execConnect : @SequenceQuery .plain :=
  letI : Library := .plain
  { within := 5000000000
    stages := [{ cls := { action := "exec" } }, { cls := { action := "connect" } }] }

theorem compile_execConnect :
    letI : Library := .plain
    compile .ascii "sequence within 5s : exec ; connect" = .ok (.sequence execConnect) := by
  have hlex : lex .ascii "sequence within 5s : exec ; connect".toList =
      .ok [word "sequence", word "within", ⟨.duration, "5s"⟩, ⟨.colon, ":"⟩, word "exec",
        ⟨.semicolon, ";"⟩, word "connect", .eof] := by
    decide +kernel
  unfold compile
  rw [hlex]
  rfl

/-- Two processes start, and a connection comes when the window of the first is over. -/
def lateConnect : List Event :=
  [{ action := "exec", timestamp := 0 }, { action := "exec", timestamp := 4 },
   { action := "connect", timestamp := 5000000002 }]

def lateLake : EventStore.Memory := EventStore.Memory.newMemory.append lateConnect

theorem run_memory_execConnect :
    letI : Library := .plain
    ∃ chains, execConnect.run .ascii (.memory lateLake) [""] = some chains ∧ chains ≠ [] ∧
      ∀ chain ∈ chains, Reported execConnect chain := by
  let _ : Library := .plain
  rcases run_memory compile_execConnect .ascii lateLake [""] with ⟨chains, hrun, hreported, -⟩
  have hfound : execConnect.run .ascii (.memory lateLake) [""] =
      some [lateLake.events.rows.tail] := rfl
  obtain rfl : _ = chains := Option.some.inj (hfound.symm.trans hrun)
  exact ⟨_, hrun, cons_ne_nil _ _, hreported⟩

theorem matchSequences_chains_lateConnect :
    letI : Library := .plain
    matchSequences id execConnect lateConnect = some [lateConnect.tail] ∧
    ∃ chains : List (List (Fin lateConnect.length)),
      matchSequences id execConnect lateConnect =
        some (chains.map fun picks => picks.map lateConnect.get) ∧
      ∀ picks ∈ chains, IsChain id execConnect lateConnect picks := by
  let _ : Library := .plain
  have hordered : lateConnect.Pairwise fun a b => (id a).timestamp ≤ (id b).timestamp := by decide
  obtain ⟨chains, hchains, hvalid, -⟩ := matchSequences_chains compile_execConnect hordered
  exact ⟨rfl, chains, hchains, hvalid⟩

end ArgusEdr.Hunt
