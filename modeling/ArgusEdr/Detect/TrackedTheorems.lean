import ArgusEdr.Detect.IncidentTheorems

/-!
# The size of the correlator's table

`follows_run` says what the table holds of every process: what a machine for that process alone would
hold, or nothing once that has run out. The sweep drops what has run out and nothing else, so the
table stays within its limit exactly as long as no more processes than that are alerting within the
window (`tracked_le_iff`).
-/

namespace ArgusEdr.Correlate

open Correlator (observe observeWith)
open List hiding next
open Model
open Simulation (next)
open Runs (run AllSteps)

variable {window threshold : ℤ}

/-! ## What the table holds -/

variable {obs hist : List Observation} {t : Time} {o : Observation}

theorem run_max_le {t₀ : Time} (h₀ : t₀ ≤ t) (h : ∀ o ∈ obs, o.time ≤ t) :
    run (fun t (o : Observation) => max t o.time) t₀ obs ≤ t := by
  induction obs generalizing t₀ with
  | nil => exact h₀
  | cons o obs ih =>
    rw [forall_mem_cons] at h
    exact ih (max_le h₀ h.1) h.2

theorem follows_run {sweep : Correlator → Time → Correlator} (hsweep : Forgets sweep)
    (htimes : obs.Pairwise fun o o' => o.time ≤ o'.time) (ht : ∀ o ∈ obs, o.time ≤ t)
    (key : String) :
    Follows window threshold key t
      (run (next (observeWith sweep)) (newCorrelator window threshold) obs)
      (run (next (soloStep window threshold)) none (obs.filter (concerns key))) := by
  -- a time before all of them to start from
  obtain ⟨t₀, h₀, hmin⟩ : ∃ t₀ ≤ t, ∀ o ∈ obs, t₀ ≤ o.time := by
    cases obs with
    | nil => exact ⟨t, le_rfl, by simp⟩
    | cons o obs =>
      refine ⟨o.time, ht o mem_cons_self, forall_mem_cons.mpr ⟨le_rfl, ?_⟩⟩
      exact (pairwise_cons.mp htimes).1
  have hsteps := AllSteps.of_pairwise (Q := fun _ => True) (fun o ho _ => hmin o ho)
    (htimes.imp fun h _ => h)
  have hstart : Follows window threshold key t₀ (newCorrelator window threshold) none :=
    ⟨rfl, rfl, .inl rfl⟩
  have hend := Simulation.run_filter (R := Follows window threshold key)
    (fun _ _ _ _ h hp ho => (follows_hit hsweep h (hp trivial) ho).1)
    (fun _ _ _ _ h _ ho => follows_miss hsweep h ho) hstart hsteps
  exact ⟨hend.1, hend.2.1, hend.2.2.mono (run_max_le h₀ ht)⟩

def tableAfter (window threshold : ℤ) (obs : List Observation) :
    Std.ExtTreeMap String ProcState :=
  (run (next observe) (newCorrelator window threshold) obs).states

section
variable {obs : List Observation} (htimes : obs.Pairwise fun o o' => o.time ≤ o'.time) {t : Time}
  (ht : ∀ o ∈ obs, o.time ≤ t)
include htimes ht

theorem last_of_entry {key : String} {state : ProcState}
    (h : (tableAfter window threshold obs)[key]? = some state) :
    ∃ o ∈ obs, concerns key o = true ∧ state.last = o.time := by
  obtain ⟨-, -, htracks⟩ : Follows window threshold key t _ _ :=
    follows_run forgets_sweep htimes ht key
  have hstate : run (next (soloStep window threshold)) none (obs.filter (concerns key)) =
      some state := by
    cases htracks with
    | inl heq => exact heq.symm.trans h
    | inr hgone => exact absurd (hgone.1.symm.trans h) (by simp)
  have hne : obs.filter (concerns key) ≠ [] := by
    intro hnil
    rw [hnil] at hstate
    cases hstate
  obtain ⟨state', hrun, hlast⟩ := run_last window threshold hne
  rw [Option.some.inj (hstate.symm.trans hrun)]
  obtain ⟨hmem, hconcerns⟩ := mem_filter.mp (getLast_mem hne)
  exact ⟨_, hmem, hconcerns, hlast⟩

theorem mem_table_of_live (ho : o ∈ obs) (halerts : o.alerts ≠ [])
    (hlive : Time.sub t o.time ≤ window) : o.key ∈ tableAfter window threshold obs := by
  have hmem : o ∈ obs.filter (concerns o.key) :=
    mem_filter.mpr ⟨ho, decide_eq_true ⟨halerts, rfl⟩⟩
  obtain ⟨state, hrun, hlast⟩ := run_last window threshold (ne_nil_of_mem hmem)
  have hle : o.time ≤ state.last := by
    rw [hlast]
    exact (htimes.filter _).rel_getLast_of_rel_getLast_getLast hmem le_rfl
  obtain ⟨-, -, htracks⟩ : Follows window threshold o.key t _ _ :=
    follows_run forgets_sweep htimes ht o.key
  rw [hrun] at htracks
  rw [Std.ExtTreeMap.mem_iff_isSome_getElem?]
  cases htracks with
  | inl heq => exact Option.isSome_of_eq_some heq
  | inr hgone =>
    obtain ⟨-, state', hstate, hout⟩ := hgone
    rw [← Option.some.inj hstate] at hout
    exact absurd ((Time.sub_le_sub le_rfl hle).trans hlive) (not_le.mpr hout)

end

/-- The processes that have raised an alert within the window before `t`. -/
def alertingKeys (window : ℤ) (t : Time) (obs : List Observation) : Finset String :=
  ((obs.filter fun o => o.alerts ≠ [] ∧ Time.sub t o.time ≤ window).map Observation.key).toFinset

theorem mem_alertingKeys {key : String} :
    key ∈ alertingKeys window t obs ↔
      ∃ o ∈ obs, o.alerts ≠ [] ∧ Time.sub t o.time ≤ window ∧ o.key = key := by
  simp [alertingKeys, and_assoc]

theorem card_keys (states : Std.ExtTreeMap String ProcState) :
    states.keys.toFinset.card = states.size := by
  rw [toFinset_card_of_nodup Std.ExtTreeMap.nodup_keys, Std.ExtTreeMap.length_keys]

theorem card_alertingKeys_le (window threshold : ℤ)
    (htimes : obs.Pairwise fun o o' => o.time ≤ o'.time) (ht : ∀ o ∈ obs, o.time ≤ t) :
    (alertingKeys window t obs).card ≤ (tableAfter window threshold obs).size := by
  rw [← card_keys]
  apply Finset.card_le_card
  intro key hkey
  obtain ⟨o, ho, halerts, hlive, rfl⟩ := mem_alertingKeys.mp hkey
  rw [mem_toFinset, Std.ExtTreeMap.mem_keys]
  exact mem_table_of_live htimes ht ho halerts hlive

/-! ## The limit -/

theorem size_sweep (c : Correlator) (now : Time) :
    (c.sweep now).states.size ≤ maxTrackedProcesses ∨
      ∀ (key : String) (state : ProcState), (c.sweep now).states[key]? = some state →
        c.states[key]? = some state ∧ Time.sub now state.last ≤ c.window := by
  unfold Correlator.sweep
  split
  · next hsize => exact .inl hsize
  · refine .inr fun key state h => ?_
    rw [Std.ExtTreeMap.getElem?_filter, Option.pfilter_eq_filter, Option.filter_eq_some_iff] at h
    exact ⟨h.1, not_lt.mp (by simpa using h.2)⟩

theorem size_observe (c : Correlator) (o : Observation) :
    (next observe c o).states.size ≤ maxTrackedProcesses ∨
      (next observe c o).states.size = c.states.size ∨
      ∀ (key : String) (state : ProcState),
        (next observe c o).states[key]? = some state →
          Time.sub o.time state.last ≤ c.window := by
  by_cases halerts : o.alerts = []
  · rw [next, observe, observeWith, if_pos halerts]
    exact .inr (.inl rfl)
  · rw [next, observe, observeWith_of_ne_nil Correlator.sweep c halerts]
    dsimp only
    rw [Std.ExtTreeMap.size_modify]
    cases stateFor_fst Correlator.sweep c o.key o.time with
    | inl hsame =>
      rw [hsame.2]
      exact .inr (.inl rfl)
    | inr hnew =>
      rw [hnew.2]
      refine (size_sweep _ _).imp_right fun hlive => .inr fun key state h => ?_
      rw [Std.ExtTreeMap.getElem?_modify] at h
      split at h
      · next hkey =>
        -- the observed process: its new entry has the time of the observation
        obtain ⟨fresh, hfresh, rfl⟩ := Option.map_eq_some_iff.mp h
        obtain ⟨hentry, hwithin⟩ := hlive o.key fresh hfresh
        rw [Std.ExtTreeMap.getElem?_insert_self] at hentry
        rw [← Option.some.inj hentry, hnew.1] at hwithin
        rw [observe_last]
        exact hwithin
      · exact (hlive key state h).2

theorem window_run (obs : List Observation) :
    (run (next observe) (newCorrelator window threshold) obs).window = window := by
  refine Runs.run_invariant (I := fun c : Correlator => c.window = window) rfl ?_ obs
  intro c o hc
  by_cases halerts : o.alerts = []
  · rw [next, observe, observeWith, if_pos halerts]
    exact hc
  · rw [next, observe, observeWith_of_ne_nil Correlator.sweep c halerts]
    exact (stateFor_window forgets_sweep c o.key o.time).1.trans hc

theorem time_le_last (htimes : (hist ++ [o]).Pairwise fun o o' => o.time ≤ o'.time) :
    ∀ p ∈ hist ++ [o], p.time ≤ o.time := by
  intro p hp
  have hlast := htimes.rel_getLast_of_rel_getLast_getLast hp le_rfl
  rwa [getLast_concat] at hlast

/-- One more observation keeps the table within the limit, if no more processes than that have
alerted within the window. -/
theorem size_concat_le (htimes : (hist ++ [o]).Pairwise fun o o' => o.time ≤ o'.time)
    (hsize : (tableAfter window threshold hist).size ≤ maxTrackedProcesses)
    (hkeys : (alertingKeys window o.time (hist ++ [o])).card ≤ maxTrackedProcesses) :
    (tableAfter window threshold (hist ++ [o])).size ≤ maxTrackedProcesses := by
  have hstep : tableAfter window threshold (hist ++ [o]) = (next observe (run
      (next observe) (newCorrelator window threshold) hist) o).states := by
    rw [tableAfter, Runs.run_concat]
  rcases size_observe (run (next observe) (newCorrelator window threshold) hist) o with
    hlimit | hsame | hlive
  · rw [hstep]
    exact hlimit
  · rw [hstep, hsame]
    exact hsize
  · rw [← hstep, window_run] at hlive
    refine le_trans ?_ hkeys
    rw [← card_keys]
    apply Finset.card_le_card
    intro key hkey
    rw [mem_toFinset, Std.ExtTreeMap.mem_keys, Std.ExtTreeMap.mem_iff_isSome_getElem?,
      Option.isSome_iff_exists] at hkey
    obtain ⟨state, hstate⟩ := hkey
    obtain ⟨p, hp, hconcerns, hlast⟩ := last_of_entry htimes (time_le_last htimes) hstate
    obtain ⟨halerts, hpkey⟩ := of_decide_eq_true hconcerns
    exact mem_alertingKeys.mpr ⟨p, hp, halerts, hlast ▸ hlive key state hstate, hpkey⟩

def flood (n : ℕ) : List Observation :=
  (List.range n).map fun i => alerting (UInt32.ofNat i) 0 80

theorem time_of_mem_flood {n : ℕ} (h : o ∈ flood n) : o.time = unixEpoch := by
  obtain ⟨i, -, rfl⟩ := mem_map.mp h
  simp [Observation.time, alerting, unixEpoch]

theorem pairwise_flood (n : ℕ) : (flood n).Pairwise fun o o' => o.time ≤ o'.time := by
  apply pairwise_of_forall_mem_list
  intro o ho o' ho'
  rw [time_of_mem_flood ho, time_of_mem_flood ho']

theorem key_alerting (pid : UInt32) (seconds risk : ℤ) :
    (alerting pid seconds risk).key = Go.formatUint pid.toNat ++ ":" ++ Go.formatUint 3000 := rfl

theorem card_alertingKeys_flood {n : ℕ} (hn : n < 2 ^ 32) :
    (alertingKeys 30000000000 unixEpoch (flood n)).card = n := by
  have hall : (flood n).filter (fun o => o.alerts ≠ [] ∧ Time.sub unixEpoch o.time ≤ 30000000000) =
      flood n := by
    apply filter_eq_self.mpr
    intro o ho
    have htime := time_of_mem_flood ho
    obtain ⟨i, -, rfl⟩ := mem_map.mp ho
    rw [decide_eq_true_eq, htime, Time.sub_self]
    exact ⟨by simp [alerting], by norm_num⟩
  have hnodup : ((flood n).map Observation.key).Nodup := by
    rw [flood, map_map]
    refine nodup_range.map_on fun i hi j hj hkey => ?_
    have hpid : (UInt32.ofNat i).toNat = (UInt32.ofNat j).toNat := by
      simp only [Function.comp_apply, key_alerting, String.append_left_inj] at hkey
      exact Go.formatUint_injective hkey
    rw [mem_range] at hi hj
    rwa [UInt32.toNat_ofNat_of_lt' (hi.trans hn), UInt32.toNat_ofNat_of_lt' (hj.trans hn)] at hpid
  rw [alertingKeys, hall, toFinset_card_of_nodup hnodup, length_map, flood,
    length_map, length_range]

end ArgusEdr.Correlate
