import ArgusEdr.Detect.Correlate

/-!
# Incidents by session

A session is a maximal run of the alerting events of one process with no more than the window between
two of them; `incidents_by_session` says which incident it leads to.

`soloStep` is the correlator of one process. Whatever sweep only forgets states that have run out, the
correlator answers every process as `soloStep` would (`trace_process`). A state that has run out is taken
for a new one, so the trace of `soloStep` falls into sessions (`sessions_eq`), and within one the state
adds up (`run_session`).
-/

namespace ArgusEdr.Correlate

open Correlator (observe observeWith stateFor)
open List hiding next
open Model
open Simulation (next trace answers)
open Runs (run AllSteps)

variable {window threshold : ℤ}

/-! ## One process -/

/-- The state an observation is added to. -/
def current (window : ℤ) (now : Time) : Option ProcState → ProcState
  | none => { first := now, last := now }
  | some state =>
    if window < Time.sub now state.last then { first := now, last := now } else state

def soloStep (window threshold : ℤ) (s : Option ProcState) (o : Observation) :
    Option ProcState × Option Incident :=
  (some ((current window o.time s).observe threshold o).1,
    ((current window o.time s).observe threshold o).2)

/-- From the time `t` on, the entry `a` of the table is as good as `s`: they are the same, or `s` has
run out and is gone. -/
def Tracks (window : ℤ) (t : Time) (a s : Option ProcState) : Prop :=
  a = s ∨ a = none ∧ ∃ state, s = some state ∧ window < Time.sub t state.last

variable {t : Time} {a : Option ProcState} {s pre obs : List Observation} {o : Observation}
  {sweep : Correlator → Time → Correlator} {c : Correlator}

theorem Tracks.mono {t' : Time} {s : Option ProcState} (h : Tracks window t a s) (ht : t ≤ t') :
    Tracks window t' a s := by
  cases h with
  | inl h => exact .inl h
  | inr h =>
    obtain ⟨ha, state, hs, hout⟩ := h
    exact .inr ⟨ha, state, hs, hout.trans_le (Time.sub_le_sub ht le_rfl)⟩

theorem Tracks.trans {b s : Option ProcState} (hab : Tracks window t a b)
    (hbs : Tracks window t b s) : Tracks window t a s := by
  cases hab with
  | inl hab => exact hab ▸ hbs
  | inr hab =>
    obtain ⟨ha, state, hb, hout⟩ := hab
    cases hbs with
    | inl hbs => exact .inr ⟨ha, state, hbs ▸ hb, hout⟩
    | inr hbs => exact .inr ⟨ha, hbs.2⟩

theorem Tracks.current_eq {now : Time} {s : Option ProcState} (h : Tracks window t a s)
    (ht : t ≤ now) : current window now a = current window now s := by
  cases h with
  | inl h => rw [h]
  | inr h =>
    obtain ⟨rfl, state, rfl, hout⟩ := h
    rw [current, current, if_pos (hout.trans_le (Time.sub_le_sub ht le_rfl))]

/-! ## The table -/

/-- A sweep that drops no state before it has run out. -/
structure Forgets (sweep : Correlator → Time → Correlator) : Prop where
  window_eq : ∀ c now, (sweep c now).window = c.window
  threshold_eq : ∀ c now, (sweep c now).threshold = c.threshold
  tracks : ∀ c now (key : String), Tracks c.window now (sweep c now).states[key]? c.states[key]?

theorem forgets_sweep : Forgets Correlator.sweep where
  window_eq c now := by unfold Correlator.sweep; split <;> rfl
  threshold_eq c now := by unfold Correlator.sweep; split <;> rfl
  tracks c now key := by
    unfold Correlator.sweep
    split
    · exact .inl rfl
    · rw [Std.ExtTreeMap.getElem?_filter]
      cases hkey : c.states[key]? with
      | none => exact .inl rfl
      | some state =>
        by_cases hout : c.window < Time.sub now state.last
        · exact .inr ⟨by simp [Option.pfilter, hout], state, rfl, hout⟩
        · exact .inl (by simp [Option.pfilter, hout])

theorem forgets_none : Forgets fun c _ => c where
  window_eq _ _ := rfl
  threshold_eq _ _ := rfl
  tracks _ _ _ := .inl rfl

section
variable {sweep : Correlator → Time → Correlator}

theorem stateFor_snd (c : Correlator) (key : String) (now : Time) :
    (c.stateFor sweep key now).2 = current c.window now c.states[key]? := by
  unfold stateFor
  cases c.states[key]? with
  | none => rfl
  | some =>
    rw [current]
    dsimp only
    split <;> rfl

theorem stateFor_fst (sweep : Correlator → Time → Correlator) (c : Correlator) (key : String)
    (now : Time) :
    (c.states[key]? = some (c.stateFor sweep key now).2 ∧ (c.stateFor sweep key now).1 = c) ∨
      ((c.stateFor sweep key now).2.last = now ∧ (c.stateFor sweep key now).1 =
        sweep { c with states := c.states.insert key (c.stateFor sweep key now).2 } now) := by
  unfold stateFor
  cases c.states[key]? with
  | none => exact .inr ⟨rfl, rfl⟩
  | some =>
    dsimp only
    split
    · exact .inr ⟨rfl, rfl⟩
    · exact .inl ⟨rfl, rfl⟩

theorem stateFor_window (hsweep : Forgets sweep) (c : Correlator) (key : String) (now : Time) :
    (c.stateFor sweep key now).1.window = c.window ∧
      (c.stateFor sweep key now).1.threshold = c.threshold := by
  cases stateFor_fst sweep c key now with
  | inl h => rw [h.2]; exact ⟨rfl, rfl⟩
  | inr h => rw [h.2, hsweep.window_eq, hsweep.threshold_eq]; exact ⟨rfl, rfl⟩

theorem tracks_stateFor_self (hsweep : Forgets sweep) (c : Correlator) (key : String) (now : Time) :
    (c.stateFor sweep key now).1.states[key]? = some (c.stateFor sweep key now).2 ∨
      (c.stateFor sweep key now).1.states[key]? = none ∧ c.window < 0 := by
  cases stateFor_fst sweep c key now with
  | inl h => rw [h.2]; exact .inl h.1
  | inr h =>
    have htracks := hsweep.tracks
      { c with states := c.states.insert key (c.stateFor sweep key now).2 } now key
    rw [← h.2, Std.ExtTreeMap.getElem?_insert_self] at htracks
    cases htracks with
    | inl hkept => exact .inl hkept
    | inr hgone =>
      obtain ⟨hnone, state, hstate, hout⟩ := hgone
      rw [← Option.some.inj hstate, h.1, Time.sub_self] at hout
      exact .inr ⟨hnone, hout⟩

variable {key : String} {s : Option ProcState}

theorem tracks_stateFor_other (hsweep : Forgets sweep) (c : Correlator) {other : String}
    (hne : other ≠ key) (now : Time) :
    Tracks c.window now (c.stateFor sweep key now).1.states[other]? c.states[other]? := by
  cases stateFor_fst sweep c key now with
  | inl h => rw [h.2]; exact .inl rfl
  | inr h =>
    have htracks := hsweep.tracks
      { c with states := c.states.insert key (c.stateFor sweep key now).2 } now other
    rw [← h.2, Std.ExtTreeMap.getElem?_insert,
      if_neg fun heq => hne (compare_eq_iff_eq.mp heq).symm] at htracks
    exact htracks

theorem observeWith_of_ne_nil (sweep : Correlator → Time → Correlator) (c : Correlator)
    (ho : o.alerts ≠ []) :
    c.observeWith sweep o =
      ({ (c.stateFor sweep o.key o.time).1 with
          states := (c.stateFor sweep o.key o.time).1.states.modify o.key fun _ =>
            ((current c.window o.time c.states[o.key]?).observe c.threshold o).1 },
        ((current c.window o.time c.states[o.key]?).observe c.threshold o).2) := by
  rw [observeWith, if_neg ho, ← stateFor_snd c o.key o.time]

theorem observe_last (state : ProcState) (o : Observation) :
    (state.observe threshold o).1.last = o.time := by
  unfold ProcState.observe
  dsimp only
  split <;> rfl

/-- The part of the table a process sees, against the correlator of that process. -/
def Follows (window threshold : ℤ) (key : String) (t : Time) (c : Correlator)
    (s : Option ProcState) : Prop :=
  c.window = window ∧ c.threshold = threshold ∧ Tracks window t c.states[key]? s

/-- The alerting events of a process. -/
def concerns (key : String) (o : Observation) : Bool := decide (o.alerts ≠ [] ∧ o.key = key)

theorem follows_hit (hsweep : Forgets sweep) (h : Follows window threshold key t c s)
    (ht : t ≤ o.time) (ho : concerns key o = true) :
    Follows window threshold key (max t o.time) (next (observeWith sweep) c o)
        (next (soloStep window threshold) s o) ∧
      (c.observeWith sweep o).2 = (soloStep window threshold s o).2 := by
  obtain ⟨rfl, rfl, htracks⟩ := h
  obtain ⟨halerts, rfl⟩ := of_decide_eq_true ho
  have hcurrent := htracks.current_eq ht
  obtain ⟨hwindow, hthreshold⟩ := stateFor_window hsweep c o.key o.time
  rw [next, next, observeWith_of_ne_nil sweep c halerts, hcurrent]
  refine ⟨⟨hwindow, hthreshold, ?_⟩, rfl⟩
  dsimp only [soloStep]
  rw [Std.ExtTreeMap.getElem?_modify, if_pos (compare_eq_iff_eq.mpr rfl)]
  cases tracks_stateFor_self hsweep c o.key o.time with
  | inl hkept =>
    rw [hkept]
    exact .inl rfl
  | inr hgone =>
    -- only with a negative window does the sweep take the new state itself
    rw [hgone.1]
    refine .inr ⟨rfl, _, rfl, ?_⟩
    rw [observe_last]
    exact hgone.2.trans_le (Time.sub_nonneg (le_max_right t o.time))

theorem follows_miss (hsweep : Forgets sweep) (h : Follows window threshold key t c s)
    (ho : concerns key o = false) :
    Follows window threshold key (max t o.time) (next (observeWith sweep) c o) s := by
  obtain ⟨rfl, rfl, htracks⟩ := h
  by_cases halerts : o.alerts = []
  · rw [next, observeWith, if_pos halerts]
    exact ⟨rfl, rfl, htracks.mono (le_max_left t o.time)⟩
  · have hkey : key ≠ o.key := fun hkey => of_decide_eq_false ho ⟨halerts, hkey.symm⟩
    obtain ⟨hwindow, hthreshold⟩ := stateFor_window hsweep c o.key o.time
    rw [next, observeWith_of_ne_nil sweep c halerts]
    refine ⟨hwindow, hthreshold, ?_⟩
    rw [Std.ExtTreeMap.getElem?_modify, if_neg fun heq => hkey (compare_eq_iff_eq.mp heq).symm]
    exact ((tracks_stateFor_other hsweep c hkey o.time).mono (le_max_right t o.time)).trans
      (htracks.mono (le_max_left t o.time))

theorem trace_process (hsweep : Forgets sweep) (htimes : obs.Pairwise fun o o' => o.time ≤ o'.time)
    (key : String) :
    (trace (observeWith sweep) (newCorrelator window threshold) obs).filter
        (fun p => concerns key p.1) =
      trace (soloStep window threshold) none (obs.filter (concerns key)) := by
  obtain ⟨t, hsteps⟩ := AllSteps.exists_of_pairwise (Q := fun _ => True) (htimes.imp fun h _ => h)
  have h0 : Follows window threshold key t (newCorrelator window threshold) none :=
    ⟨rfl, rfl, .inl rfl⟩
  have hfilter : ((trace (observeWith sweep) (newCorrelator window threshold) obs).filter
      (fun p => concerns key p.1)).map (fun p => (p.1, id p.2)) =
        trace (soloStep window threshold) none (obs.filter (concerns key)) :=
    Simulation.trace_filter (R := Follows window threshold key)
      (fun _ _ _ _ h hp ho => follows_hit hsweep h (hp trivial) ho)
      (fun _ _ _ _ h _ ho => follows_miss hsweep h ho) h0 hsteps
  rw [← hfilter]
  exact (map_id _).symm

end

/-! ## Sessions -/

def alertsOf (s : List Observation) : List Alert := s.flatMap Observation.alerts

def risk (s : List Observation) : ℤ := ((alertsOf s).map scoreOf).sum

/-- No more than the window lies between two observations. -/
def close (window : ℤ) (o o' : Observation) : Bool := decide (Time.sub o'.time o.time ≤ window)

theorem alertsOf_concat (s : List Observation) (o : Observation) :
    alertsOf (s ++ [o]) = alertsOf s ++ o.alerts := by
  simp [alertsOf]

theorem scoreOf_nonneg (alert : Alert) : 0 ≤ scoreOf alert := by
  unfold scoreOf
  split
  · omega
  · cases alert.severity <;> decide

theorem risk_concat (s : List Observation) (o : Observation) :
    risk (s ++ [o]) = risk s + (o.alerts.map scoreOf).sum := by
  rw [risk, alertsOf_concat, map_append, sum_append, risk]

theorem risk_mono {p : List Observation} (h : p <+: s) : risk p ≤ risk s := by
  obtain ⟨rest, rfl⟩ := h
  have hrest : 0 ≤ risk rest := by
    apply sum_nonneg
    intro score hscore
    obtain ⟨alert, -, rfl⟩ := mem_map.mp hscore
    exact scoreOf_nonneg alert
  have happend : risk (p ++ rest) = risk p + risk rest := by
    simp [risk, alertsOf]
  omega

/-- The state in which a session leaves the correlator of its process. -/
def sessionState (threshold : ℤ) (s : List Observation) (hs : s ≠ []) : ProcState where
  score := risk s
  techniques := ((alertsOf s).map (·.technique.id)).toFinset
  ruleIDs := (alertsOf s).map (·.ruleID)
  first := (s.head hs).time
  last := (s.getLast hs).time
  opened := decide (threshold ≤ risk s)

theorem foldl_add (alerts : List Alert) (state : ProcState) :
    alerts.foldl ProcState.add state =
      { state with
        score := state.score + (alerts.map scoreOf).sum
        techniques := state.techniques ∪ (alerts.map (·.technique.id)).toFinset
        ruleIDs := state.ruleIDs ++ alerts.map (·.ruleID) } := by
  induction alerts generalizing state with
  | nil => simp
  | cons alert alerts ih =>
    rw [foldl_cons, ih, ProcState.add]
    simp only [map_cons, sum_cons, toFinset_cons, append_assoc,
      singleton_append, Finset.insert_union, Finset.union_insert, add_assoc]

/-- Whether the scores have reached the threshold before an event, and with it. -/
def Opens (threshold : ℤ) (pre : List Observation) (o : Observation) : Prop :=
  ¬(pre ≠ [] ∧ threshold ≤ risk pre) ∧ threshold ≤ risk (pre ++ [o])

instance (pre : List Observation) (o : Observation) : Decidable (Opens threshold pre o) := by
  unfold Opens; infer_instance

theorem addAll_session (hchain : (pre ++ [o]).IsChain fun a b => close window a b = true)
    {s : Option ProcState} (hnil : pre = [] → s = none)
    (hs : ∀ hpre : pre ≠ [], s = some (sessionState threshold pre hpre)) :
    (current window o.time s).addAll o =
      { sessionState threshold (pre ++ [o]) (by simp) with
        opened := decide (pre ≠ [] ∧ threshold ≤ risk pre) } := by
  rw [ProcState.addAll, foldl_add]
  by_cases hpre : pre = []
  · rw [hnil hpre, current]
    subst hpre
    simp [sessionState, risk, alertsOf]
  · have hclose : Time.sub o.time (sessionState threshold pre hpre).last ≤ window := by
      have hrel := (isChain_append.mp hchain).2.2 (pre.getLast hpre)
        (getLast?_eq_some_getLast hpre) o rfl
      exact of_decide_eq_true hrel
    rw [hs hpre, current, if_neg (not_lt.mpr hclose)]
    simp [sessionState, risk_concat, alertsOf_concat, hpre]

theorem soloStep_session (hchain : (pre ++ [o]).IsChain fun a b => close window a b = true)
    {s : Option ProcState} (hnil : pre = [] → s = none)
    (hs : ∀ hpre : pre ≠ [], s = some (sessionState threshold pre hpre)) :
    soloStep window threshold s o =
      (some (sessionState threshold (pre ++ [o]) (by simp)),
        if Opens threshold pre o then
          some (buildIncident o.event (sessionState threshold (pre ++ [o]) (by simp)))
        else none) := by
  have hmono : risk pre ≤ risk (pre ++ [o]) := risk_mono (prefix_append pre [o])
  have hadded := addAll_session hchain hnil hs
  rw [soloStep, ProcState.observe, hadded]
  by_cases hbefore : pre ≠ [] ∧ threshold ≤ risk pre
  · have hreached : threshold ≤ risk (pre ++ [o]) := hbefore.2.trans hmono
    rw [if_pos (.inl (decide_eq_true hbefore)), if_neg fun h => h.1 hbefore]
    simp [sessionState, hbefore, hreached]
  · by_cases hreached : threshold ≤ risk (pre ++ [o])
    · rw [if_neg (by simp [sessionState, hbefore, hreached]), if_pos ⟨hbefore, hreached⟩]
      simp [sessionState, hreached]
    · rw [if_pos (.inr (not_le.mp hreached)), if_neg fun h => hreached h.2]
      simp [sessionState, hbefore, hreached]

theorem run_session (hs : s ≠ []) (hchain : s.IsChain fun a b => close window a b = true) :
    run (next (soloStep window threshold)) none s = some (sessionState threshold s hs) := by
  induction s using List.reverseRecOn with
  | nil => exact absurd rfl hs
  | append_singleton pre o ih =>
    rw [Runs.run_concat, next, soloStep_session hchain (fun hnil => by rw [hnil]; rfl)]
    intro hpre
    exact ih hpre (isChain_append.mp hchain).1

theorem answer_session (hchain : (pre ++ [o]).IsChain fun a b => close window a b = true) :
    (soloStep window threshold (run (next (soloStep window threshold)) none pre) o).2 =
      if Opens threshold pre o then
        some (buildIncident o.event (sessionState threshold (pre ++ [o]) (by simp)))
      else none := by
  rw [soloStep_session hchain (fun hnil => by rw [hnil]; rfl)]
  intro hpre
  exact run_session hpre (isChain_append.mp hchain).1

theorem run_last (window threshold : ℤ) (hs : s ≠ []) :
    ∃ state, run (next (soloStep window threshold)) none s = some state ∧
      state.last = (s.getLast hs).time := by
  cases s using List.reverseRecOn with
  | nil => exact absurd rfl hs
  | append_singleton =>
    rw [Runs.run_concat]
    refine ⟨_, rfl, ?_⟩
    rw [observe_last, getLast_concat]

theorem soloStep_after (hs : s ≠ []) (hfar : close window (s.getLast hs) o = false) :
    soloStep window threshold (run (next (soloStep window threshold)) none s) o =
      soloStep window threshold none o := by
  obtain ⟨state, hrun, hstate⟩ := run_last window threshold hs
  have hout : window < Time.sub o.time state.last := by
    rw [hstate]
    exact not_le.mp (of_decide_eq_false hfar)
  rw [hrun, soloStep, soloStep, current, current, if_pos hout]

/-- The alerting events of a process with their answers, cut into its sessions. -/
def sessions (window : ℤ) (key : String) (tr : List (Observation × Option Incident)) :
    List (List (Observation × Option Incident)) :=
  (tr.filter fun p => concerns key p.1).splitBy fun p q => close window p.1 q.1

theorem sessions_eq (hsweep : Forgets sweep) (htimes : obs.Pairwise fun o o' => o.time ≤ o'.time)
    (key : String) :
    sessions window key
        (trace (observeWith sweep) (newCorrelator window threshold) obs) =
      ((obs.filter (concerns key)).splitBy (close window)).map
        (trace (soloStep window threshold) none) := by
  rw [sessions, trace_process hsweep htimes]
  exact Simulation.splitBy_trace (fun s hs o hfar => soloStep_after hs hfar) _

/-! ## What a session is answered -/

/-- The event is the first of its session with which the scores reach the threshold. -/
def FirstReaches (threshold : ℤ) (pre : List Observation) (o : Observation) : Prop :=
  threshold ≤ risk (pre ++ [o]) ∧ ∀ p, p <+: pre → p ≠ [] → risk p < threshold

theorem opens_iff_firstReaches : Opens threshold pre o ↔ FirstReaches threshold pre o := by
  constructor
  · rintro ⟨hbefore, hreached⟩
    refine ⟨hreached, fun p hp hne => ?_⟩
    have hpre : pre ≠ [] := fun hnil => hne (prefix_nil.mp (hnil ▸ hp))
    have hlt : risk pre < threshold := not_le.mp fun h => hbefore ⟨hpre, h⟩
    exact (risk_mono hp).trans_lt hlt
  · rintro ⟨hreached, hbefore⟩
    refine ⟨fun h => ?_, hreached⟩
    exact absurd h.2 (not_le.mpr (hbefore pre (prefix_refl pre) h.1))

/-- An incident tells what happened in its session so far. `List.dedup` keeps the last of equal
elements, so that, of a reversed list, the first are kept. -/
structure Describes (s : List Observation) (incident : Incident) : Prop where
  risk_eq : incident.riskScore = risk s
  techniques_sorted : incident.techniques.Pairwise (· < ·)
  mem_techniques : ∀ id, id ∈ incident.techniques ↔ id ≠ "" ∧ ∃ a ∈ alertsOf s, a.technique.id = id
  ruleIDs_eq : incident.ruleIDs = ((alertsOf s).map (·.ruleID)).reverse.dedup.reverse

theorem dedupeStrings_eq (values : List String) :
    dedupeStrings values = values.reverse.dedup.reverse := by
  induction values using List.reverseRecOn with
  | nil => rfl
  | append_singleton values v ih =>
    have hmem : v ∈ dedupeStrings values ↔ v ∈ values.reverse := by
      rw [ih, mem_reverse, mem_dedup]
    rw [dedupeStrings, foldl_concat, ← dedupeStrings, reverse_concat]
    by_cases hv : v ∈ values.reverse
    · rw [if_pos (hmem.mpr hv), dedup_cons_of_mem hv, ih]
    · rw [if_neg fun h => hv (hmem.mp h), dedup_cons_of_notMem hv, reverse_cons, ih]

theorem describes_buildIncident (event : Event) (hs : s ≠ []) :
    Describes s (buildIncident event (sessionState threshold s hs)) where
  risk_eq := rfl
  techniques_sorted :=
    (Finset.sortedLT_sort ((sessionState threshold s hs).techniques.erase "")).pairwise
  mem_techniques id := by
    rw [buildIncident]
    simp [sessionState]
  ruleIDs_eq := dedupeStrings_eq _

/-- What a session is answered: an incident with the first event at which its scores reach the
threshold and with no other, if they ever do. -/
structure SessionAnswers (threshold : ℤ) (s : List (Observation × Option Incident)) : Prop where
  isSome_iff : ∀ pre o r post, s = pre ++ (o, r) :: post →
    (r.isSome = true ↔ FirstReaches threshold (pre.map Prod.fst) o)
  describes : ∀ pre o incident post, s = pre ++ (o, some incident) :: post →
    Describes (pre.map Prod.fst ++ [o]) incident
  once : (s.filterMap Prod.snd).length = if threshold ≤ risk (s.map Prod.fst) then 1 else 0

theorem length_incidents (hs : s ≠ []) (hchain : s.IsChain fun a b => close window a b = true) :
    ((trace (soloStep window threshold) none s).filterMap Prod.snd).length =
      if threshold ≤ risk s then 1 else 0 := by
  induction s using List.reverseRecOn with
  | nil => exact absurd rfl hs
  | append_singleton pre o ih =>
    have hmono : risk pre ≤ risk (pre ++ [o]) := risk_mono (prefix_append pre [o])
    have hpre : ((trace (soloStep window threshold) none pre).filterMap Prod.snd).length =
        if pre ≠ [] ∧ threshold ≤ risk pre then 1 else 0 := by
      by_cases hnil : pre = []
      · rw [hnil]
        simp
      · rw [ih hnil (isChain_append.mp hchain).1]
        simp [hnil]
    rw [Simulation.trace_append, filterMap_append, length_append, Simulation.trace_cons,
      Simulation.trace_nil, answer_session hchain, hpre]
    by_cases hbefore : pre ≠ [] ∧ threshold ≤ risk pre
    · rw [if_pos hbefore, if_neg fun h => h.1 hbefore, if_pos (hbefore.2.trans hmono)]
      rfl
    · by_cases hreached : threshold ≤ risk (pre ++ [o])
      · rw [if_neg hbefore, if_pos ⟨hbefore, hreached⟩, if_pos hreached]
        rfl
      · rw [if_neg hbefore, if_neg fun h => hreached h.2, if_neg hreached]
        rfl

theorem sessionAnswers_trace (hs : s ≠ []) (hchain : s.IsChain fun a b => close window a b = true) :
    SessionAnswers threshold (trace (soloStep window threshold) none s) := by
  have hanswer : ∀ pre o r post,
      trace (soloStep window threshold) none s = pre ++ (o, r) :: post →
      r = if Opens threshold (pre.map Prod.fst) o then
        some (buildIncident o.event
          (sessionState threshold (pre.map Prod.fst ++ [o]) (by simp))) else none := by
    intro pre o r post hsplit
    obtain ⟨s₁, s₂, rfl, rfl, rfl⟩ := Simulation.trace_eq_split hsplit
    rw [append_cons, isChain_append] at hchain
    rw [answer_session hchain.1]
    simp only [Simulation.map_fst_trace]
  refine ⟨?_, ?_, ?_⟩
  · intro pre o r post hsplit
    rw [hanswer pre o r post hsplit, ← opens_iff_firstReaches]
    split <;> simp_all
  · intro pre o incident post hsplit
    have hr := hanswer pre o _ post hsplit
    split at hr
    · rw [Option.some.inj hr]
      exact describes_buildIncident _ _
    · exact absurd hr (by simp)
  · rw [Simulation.map_fst_trace]
    exact length_incidents hs hchain

/-! ## The correlator -/

theorem observeWith_of_nil (ho : o.alerts = []) : (c.observeWith sweep o).2 = none := by
  rw [observeWith, if_pos ho]

theorem answer_of_nil {p : Observation × Option Incident}
    (hp : p ∈ trace (observeWith sweep) c obs) (halerts : p.1.alerts = []) :
    p.2 = none := by
  obtain ⟨pre, post, hsplit⟩ := append_of_mem hp
  obtain ⟨obs₁, obs₂, -, -, hanswer⟩ := Simulation.trace_eq_split hsplit
  rw [hanswer, observeWith_of_nil halerts]

theorem eq_of_filter_eq {l l' : List (Observation × Option Incident)}
    (hfst : l.map Prod.fst = l'.map Prod.fst)
    (hnil : ∀ p ∈ l, p.1.alerts = [] → p.2 = none) (hnil' : ∀ p ∈ l', p.1.alerts = [] → p.2 = none)
    (h : ∀ key, l.filter (fun p => concerns key p.1) = l'.filter fun p => concerns key p.1) :
    l = l' := by
  induction l generalizing l' with
  | nil => exact (map_eq_nil_iff.mp hfst.symm).symm
  | cons p l ih =>
    cases l' with
    | nil => simp at hfst
    | cons p' l' =>
      obtain ⟨hp, hrest⟩ := List.cons.inj hfst
      rw [forall_mem_cons] at hnil hnil'
      have hhead : p = p' := by
        by_cases halerts : p.1.alerts = []
        · exact Prod.ext hp ((hnil.1 halerts).trans (hnil'.1 (hp ▸ halerts)).symm)
        · have hkey := h p.1.key
          have hconcerns : concerns p.1.key p.1 = true := decide_eq_true ⟨halerts, rfl⟩
          simp only [filter_cons, ← hp, hconcerns, if_true, List.cons.injEq] at hkey
          exact hkey.1
      subst hhead
      rw [ih hrest hnil.2 hnil'.2]
      intro key
      have hkey := h key
      rw [filter_cons, filter_cons] at hkey
      split at hkey
      · exact (List.cons.inj hkey).2
      · exact hkey

/-- For observations in the order of their times: every session is answered one incident, with the
first event at which its scores reach the threshold, or none if they never do; an event without
alerts is answered nothing; and the sweep changes no answer. -/
theorem incidents_by_session (window threshold : ℤ) {obs : List Observation}
    (htimes : obs.Pairwise fun o o' => o.time ≤ o'.time) :
    let tr := trace observe (newCorrelator window threshold) obs
    (∀ key, ∀ s ∈ sessions window key tr, SessionAnswers threshold s) ∧
      (∀ p ∈ tr, p.1.alerts = [] → p.2 = none) ∧
      tr = trace Correlator.observeUnswept (newCorrelator window threshold) obs := by
  intro tr
  refine ⟨?_, fun p hp halerts => answer_of_nil hp halerts, ?_⟩
  · intro key s hs
    rw [show sessions window key tr = _ from sessions_eq forgets_sweep htimes key,
      mem_map] at hs
    obtain ⟨session, hsession, rfl⟩ := hs
    obtain ⟨-, hne, hchain, -⟩ := splitBy_eq_iff.mp
      (rfl : (obs.filter (concerns key)).splitBy (close window) = _)
    exact sessionAnswers_trace (fun hnil => hne (hnil ▸ hsession)) (hchain session hsession)
  · refine eq_of_filter_eq ?_ (fun p hp halerts => answer_of_nil hp halerts)
      (fun p hp halerts => answer_of_nil hp halerts) fun key => ?_
    · rw [Simulation.map_fst_trace, Simulation.map_fst_trace]
    · exact (trace_process forgets_sweep htimes key).trans (trace_process forgets_none htimes key).symm

/-- Two events of one process, half a minute of window and a threshold of 75. -/
theorem incidents_by_session_webserver :
    let alert (id : String) (risk : ℤ) : Alert := { ruleID := id, riskScore := risk }
    let event : Event :=
      { timestamp := unixEpoch, host := "web-01", process := { pid := 4200, startTimeNs := 3000 } }
    let obs : List Observation :=
      [{ event, alerts := [alert "R-0001" 50] }, { event, alerts := [alert "R-0008" 40] }]
    ∀ s ∈ sessions 30000000000 "4200:3000"
        (trace observe (newCorrelator 30000000000 75) obs), SessionAnswers 75 s := by
  intro alert event obs
  have htimes : obs.Pairwise fun o o' => o.time ≤ o'.time := by
    simp [obs, Observation.time, event, unixEpoch]
  exact (incidents_by_session 30000000000 75 htimes).1 "4200:3000"

end ArgusEdr.Correlate
