import ArgusEdr.Detect.CorrelateTheorems
import ArgusEdr.Go.Strconv

/-!
# The window and the ids of incidents

A session lasts as long as no gap is longer than the window, so an incident can count alerts that are
older than the window (`window_reaches_iff`). Its id is made of the host and the start of the session,
which two processes may share (`same_id_iff`).
-/

namespace ArgusEdr.Correlate

open Correlator (observe)
open List hiding next
open Model
open Simulation (next trace answers trace_cons trace_nil)
open Runs (run AllSteps)

variable {window threshold : ℤ}

theorem Time.sub_le_of_le {t u : Time} (h : u ≤ t) : Time.sub t u ≤ t - u := by
  have hpos : 0 ≤ t - u := Int.sub_nonneg_of_le h
  exact max_le (le_trans (by norm_num) hpos) (min_le_right _ _)

/-! ## The session of an observation -/

theorem exists_session (F : List Observation) (o : Observation) :
    ∃ before s, F = before ++ s ∧ (s ++ [o]).IsChain (fun a b => close window a b = true) ∧
      (∀ p ∈ before.getLast?, ∀ q ∈ (s ++ [o]).head?, close window p q = false) ∧
      soloStep window threshold (run (next (soloStep window threshold)) none F) o =
        soloStep window threshold (run (next (soloStep window threshold)) none s) o := by
  induction F using List.reverseRecOn generalizing o with
  | nil => exact ⟨[], [], rfl, by simp, by simp, rfl⟩
  | append_singleton F o' ih =>
    cases hclose : close window o' o with
    | false =>
      refine ⟨F ++ [o'], [], by simp, by simp, ?_, soloStep_after (by simp) (by simpa)⟩
      simpa using hclose
    | true =>
      obtain ⟨before, s, rfl, hchain, hfar, hstep⟩ := ih o'
      refine ⟨before, s ++ [o'], by simp, ?_, ?_, ?_⟩
      · rw [isChain_append]
        exact ⟨hchain, by simp, by simpa using hclose⟩
      · rw [head?_append_of_ne_nil _ (by simp)]
        exact hfar
      · rw [Runs.run_concat, Runs.run_concat, next, next, hstep]

variable {o : Observation} {incident : Incident} {hist : List Observation} {first : Time}

theorem alerts_ne_nil {c : Correlator} (h : (c.observe o).2 = some incident) : o.alerts ≠ [] := by
  intro hnil
  rw [observe, observeWith_of_nil hnil] at h
  cases h

theorem solo_answer (htimes : (hist ++ [o]).Pairwise fun o o' => o.time ≤ o'.time)
    (ho : o.alerts ≠ []) :
    (observe (run (next observe) (newCorrelator window threshold) hist) o).2 =
      (soloStep window threshold (run (next (soloStep window threshold)) none
        (hist.filter (concerns o.key))) o).2 := by
  have hkeep : concerns o.key o = true := decide_eq_true ⟨ho, rfl⟩
  have hkeep' : ∀ r, [((o, r) : Observation × Option Incident)].filter
      (fun p => concerns o.key p.1) = [(o, r)] :=
    fun r => filter_eq_self.mpr (by simpa using hkeep)
  have htrace : _ = trace (soloStep window threshold) none _ :=
    trace_process forgets_sweep htimes o.key
  rw [filter_append, Simulation.trace_append, Simulation.trace_append, filter_append,
    filter_cons_of_pos hkeep, filter_nil, trace_cons, trace_cons,
    trace_nil, trace_nil, hkeep'] at htrace
  have hlast := (append_inj' htrace rfl).2
  exact congrArg Prod.snd (List.cons.inj hlast).1

structure FromSession (window threshold : ℤ) (hist : List Observation) (o : Observation)
    (incident : Incident) (before s : List Observation) : Prop where
  concerned : concerns o.key o = true
  events : hist.filter (concerns o.key) = before ++ s
  chain : (s ++ [o]).IsChain fun a b => close window a b = true
  far : ∀ p ∈ before.getLast?, ∀ q ∈ (s ++ [o]).head?, close window p q = false
  opens : Opens threshold s o
  incident_eq : incident = buildIncident o.event (sessionState threshold (s ++ [o]) (by simp))

theorem exists_fromSession
    (htimes : (hist ++ [o]).Pairwise fun o o' => o.time ≤ o'.time)
    (h : (observe (run (next observe) (newCorrelator window threshold) hist)
      o).2 = some incident) :
    ∃ before s, FromSession window threshold hist o incident before s := by
  have halerts := alerts_ne_nil h
  rw [solo_answer htimes halerts] at h
  obtain ⟨before, s, hF, hchain, hfar, hstep⟩ := exists_session (hist.filter (concerns o.key)) o
  rw [hstep, answer_session hchain] at h
  have hkeep : concerns o.key o = true := decide_eq_true ⟨halerts, rfl⟩
  split at h
  · next hopens =>
    exact ⟨before, s, hkeep, hF, hchain, hfar, hopens, (Option.some.inj h).symm⟩
  · cases h

/-- The id of an incident on a host, in a session that started at `first`. -/
def incidentID (host : String) (first : Time) : Go.Formatted where
  format := "INC-%s-%d"
  args := [host, toString (Time.unixNano first)]

section
variable {hist before s : List Observation} {o : Observation} {incident : Incident}

theorem FromSession.filter_eq (h : FromSession window threshold hist o incident before s) :
    (hist ++ [o]).filter (concerns o.key) = before ++ (s ++ [o]) := by
  rw [filter_append, h.events, filter_cons_of_pos h.concerned, filter_nil,
    append_assoc]

theorem FromSession.times (h : FromSession window threshold hist o incident before s)
    (htimes : (hist ++ [o]).Pairwise fun o o' => o.time ≤ o'.time) :
    (before ++ (s ++ [o])).Pairwise fun o o' => o.time ≤ o'.time := by
  rw [← h.filter_eq]
  exact htimes.filter _

theorem FromSession.before_lt (h : FromSession window threshold hist o incident before s)
    (htimes : (hist ++ [o]).Pairwise fun o o' => o.time ≤ o'.time) {p : Observation}
    (hp : p ∈ before) : p.time < incident.firstSeen - window := by
  have hne : before ≠ [] := ne_nil_of_mem hp
  have hne' : s ++ [o] ≠ [] := by simp
  obtain ⟨hbefore, -, hcross⟩ := pairwise_append.mp (h.times htimes)
  have hlast : p.time ≤ (before.getLast hne).time :=
    hbefore.rel_getLast_of_rel_getLast_getLast hp le_rfl
  have horder : (before.getLast hne).time ≤ ((s ++ [o]).head hne').time :=
    hcross _ (getLast_mem hne) _ (head_mem hne')
  have hgap : window < Time.sub ((s ++ [o]).head hne').time (before.getLast hne).time :=
    not_le.mp (of_decide_eq_false
      (h.far _ (getLast?_eq_some_getLast hne) _ (head?_eq_some_head hne')))
  have hfirst : incident.firstSeen = ((s ++ [o]).head hne').time := by
    rw [h.incident_eq]
    rfl
  have hsub := Time.sub_le_of_le horder
  rw [hfirst]
  linarith

theorem FromSession.firstSeen_of_forall (h : FromSession window threshold hist o incident before s)
    {P : Time → Prop} (hall : ∀ p ∈ hist ++ [o], P p.time) : P incident.firstSeen := by
  have hne : s ++ [o] ≠ [] := by simp
  have hmem : (s ++ [o]).head hne ∈ (hist ++ [o]).filter (concerns o.key) := by
    rw [h.filter_eq]
    exact mem_append_right before (head_mem hne)
  rw [h.incident_eq]
  exact hall _ (mem_of_mem_filter hmem)

theorem FromSession.id_eq (h : FromSession window threshold hist o incident before s) :
    incident.id = incidentID incident.host incident.firstSeen := by
  rw [h.incident_eq]
  rfl

theorem FromSession.filter_before (h : FromSession window threshold hist o incident before s)
    (htimes : (hist ++ [o]).Pairwise fun o o' => o.time ≤ o'.time) {keep : Observation → Bool}
    (hkeep : ∀ p, keep p = true → incident.firstSeen - window ≤ p.time) :
    before.filter keep = [] := by
  apply filter_eq_nil_iff.mpr
  intro p hp hmem
  exact absurd (hkeep p hmem) (not_le.mpr (h.before_lt htimes hp))

theorem FromSession.mem_times (h : FromSession window threshold hist o incident before s)
    (htimes : (hist ++ [o]).Pairwise fun o o' => o.time ≤ o'.time) {p : Observation}
    (hp : p ∈ s ++ [o]) : incident.firstSeen ≤ p.time ∧ p.time ≤ o.time := by
  have hsession := (pairwise_append.mp (h.times htimes)).2.1
  have hhead := hsession.rel_head_of_rel_head_head hp le_rfl
  have hlast := hsession.rel_getLast_of_rel_getLast_getLast hp le_rfl
  rw [getLast_concat] at hlast
  rw [h.incident_eq]
  exact ⟨hhead, hlast⟩

/-! ## The window -/

theorem risk_append (s s' : List Observation) : risk (s ++ s') = risk s + risk s' := by
  simp [risk, alertsOf]

theorem risk_nonneg (s : List Observation) : 0 ≤ risk s := risk_mono (List.nil_prefix (l := s))

theorem risk_filter_add (p : Observation → Bool) (s : List Observation) :
    risk (s.filter p) + risk (s.filter fun o => !p o) = risk s := by
  induction s with
  | nil => rfl
  | cons o s ih =>
    rw [← singleton_append, filter_append, filter_append, risk_append, risk_append,
      risk_append, ← ih]
    cases hp : p o with
    | true | false =>
      simp [hp, risk, alertsOf]
      omega

/-- The alerting events of a process with times from the window before `t` up to `t`. -/
def inWindow (window : ℤ) (key : String) (t : Time) (obs : List Observation) : List Observation :=
  (obs.filter (concerns key)).filter fun o => t - window ≤ o.time ∧ o.time ≤ t

/-- The alerting events of a process since `first` that are older than that. -/
def outdated (window : ℤ) (key : String) (first t : Time) (obs : List Observation) :
    List Observation :=
  (obs.filter (concerns key)).filter fun o => first ≤ o.time ∧ o.time < t - window

theorem FromSession.risk_eq (h : FromSession window threshold hist o incident before s) :
    incident.riskScore = risk (s ++ [o]) := by
  rw [h.incident_eq]
  rfl

theorem FromSession.le_inWindow (h : FromSession window threshold hist o incident before s)
    (htimes : (hist ++ [o]).Pairwise fun o o' => o.time ≤ o'.time)
    (hfirst : o.time - window ≤ incident.firstSeen) :
    incident.riskScore ≤ risk (inWindow window o.key o.time (hist ++ [o])) := by
  have hall : (s ++ [o]).filter (fun p => o.time - window ≤ p.time ∧ p.time ≤ o.time) = s ++ [o] := by
    apply filter_eq_self.mpr
    intro p hp
    obtain ⟨hge, hle⟩ := h.mem_times htimes hp
    exact decide_eq_true ⟨hfirst.trans hge, hle⟩
  rw [inWindow, h.filter_eq, filter_append, hall, risk_append, h.risk_eq]
  exact le_add_of_nonneg_left (risk_nonneg _)

/-- An incident counts the events of the window, and those of the session that are older. -/
theorem FromSession.risk_split (h : FromSession window threshold hist o incident before s)
    (htimes : (hist ++ [o]).Pairwise fun o o' => o.time ≤ o'.time) (hwindow : 0 ≤ window) :
    incident.riskScore = risk (inWindow window o.key o.time (hist ++ [o])) +
      risk (outdated window o.key incident.firstSeen o.time (hist ++ [o])) := by
  have hle : incident.firstSeen ≤ o.time := (h.mem_times htimes (by simp : o ∈ s ++ [o])).1
  -- what came before the session is too old for the one and for the other
  have hin : before.filter (fun p => o.time - window ≤ p.time ∧ p.time ≤ o.time) = [] :=
    h.filter_before htimes fun p hp => by linarith [(of_decide_eq_true hp).1]
  have hout : before.filter
      (fun p => incident.firstSeen ≤ p.time ∧ p.time < o.time - window) = [] :=
    h.filter_before htimes fun p hp => by linarith [(of_decide_eq_true hp).1]
  -- within the session, an event is in the window or older
  have hnot : (s ++ [o]).filter (fun p => incident.firstSeen ≤ p.time ∧ p.time < o.time - window) =
      (s ++ [o]).filter fun p => !decide (o.time - window ≤ p.time ∧ p.time ≤ o.time) := by
    apply filter_congr
    intro p hp
    obtain ⟨hge, hle⟩ := h.mem_times htimes hp
    simp only [hge, hle, true_and, and_true, ← decide_not, not_le]
  rw [inWindow, outdated, h.filter_eq, filter_append before, filter_append before, hin, hout,
    hnot, nil_append, nil_append, risk_filter_add, h.risk_eq]

end

/-- An event of a process with one alert, `seconds` after the start of the year 1970. -/
def alerting (pid : UInt32) (seconds risk : ℤ) : Observation where
  event :=
    { timestamp := unixEpoch + seconds * 1000000000
      host := "web-01"
      process := { pid := pid, startTimeNs := 3000 } }
  alerts := [{ ruleID := "R-0001", riskScore := risk }]

theorem FromSession.firstSeen_ne {mid before s before' s' : List Observation} {o' : Observation}
    {incident' : Incident} (hwindow : 0 ≤ window)
    (htimes : ((hist ++ o :: mid) ++ [o']).Pairwise fun o o' => o.time ≤ o'.time)
    (h : FromSession window threshold hist o incident before s)
    (h' : FromSession window threshold (hist ++ o :: mid) o' incident' before' s')
    (hkey : o.key = o'.key) : incident.firstSeen ≠ incident'.firstSeen := by
  intro hfirst
  have htimes₀ : (hist ++ [o]).Pairwise fun o o' => o.time ≤ o'.time :=
    htimes.sublist (by simp)
  -- the earlier session is not part of what came before the later one
  have hlate : ∀ p ∈ s ++ [o], p ∉ before' := by
    intro p hp hp'
    have hlt := h'.before_lt htimes hp'
    have hge := (h.mem_times htimes₀ hp).1
    linarith
  have hevents : before' ++ s' = before ++ ((s ++ [o]) ++ mid.filter (concerns o.key)) := by
    rw [← h'.events, ← hkey, filter_append, h.events, filter_cons_of_pos h.concerned]
    simp
  have hcounted : ∃ as, s' = as ++ ((s ++ [o]) ++ mid.filter (concerns o.key)) := by
    cases append_eq_append_iff.mp hevents with
    | inl hlong =>
      obtain ⟨as, -, hs'⟩ := hlong
      exact ⟨as, hs'⟩
    | inr hshort =>
      obtain ⟨bs, hbefore, hs'⟩ := hshort
      cases bs with
      | nil => exact ⟨[], hs'.symm⟩
      | cons p bs =>
        have hp : (s ++ [o]).head? = some p := by
          rw [← head?_append_of_ne_nil _ (by simp), hs', cons_append, head?_cons]
        have hp' : p ∈ before' := by simp [hbefore]
        exact absurd hp' (hlate p (mem_of_mem_head? hp))
  obtain ⟨as, hs'⟩ := hcounted
  have hrisk : threshold ≤ risk s' := by
    rw [hs', risk_append, risk_append]
    have hopens := h.opens.2
    linarith [risk_nonneg as, risk_nonneg (mid.filter (concerns o.key))]
  exact h'.opens.1 ⟨by rw [hs']; simp, hrisk⟩

theorem append_stop_inj {α : Type*} {x x' z z' : List α} {a : α} (hx : a ∉ x) (hx' : a ∉ x')
    (h : x ++ a :: z = x' ++ a :: z') : x = x' ∧ z = z' := by
  induction x generalizing x' with
  | nil =>
    cases x' with
    | nil => exact ⟨rfl, (List.cons.inj h).2⟩
    | cons =>
      obtain ⟨rfl, -⟩ := List.cons.inj h
      exact absurd mem_cons_self hx'
  | cons b x ih =>
    cases x' with
    | nil =>
      obtain ⟨rfl, -⟩ := List.cons.inj h
      exact absurd mem_cons_self hx
    | cons =>
      obtain ⟨rfl, htail⟩ := List.cons.inj h
      rw [mem_cons, not_or] at hx hx'
      obtain ⟨rfl, hz⟩ := ih hx.2 hx'.2 htail
      exact ⟨rfl, hz⟩

/-- A host and a number with a dash between them can be told apart, whatever is in the host. -/
theorem append_dash_inj {a a' : List Char} {n n' : ℕ}
    (h : a ++ '-' :: Nat.toDigits 10 n = a' ++ '-' :: Nat.toDigits 10 n') : a = a' ∧ n = n' := by
  have hdash : ∀ n, '-' ∉ (Nat.toDigits 10 n).reverse := by
    intro n hmem
    have hdigit := (Go.digits_toDigits n).2.1 '-' (mem_reverse.mp hmem)
    exact absurd hdigit (by decide)
  have hrev : (Nat.toDigits 10 n).reverse ++ '-' :: a.reverse =
      (Nat.toDigits 10 n').reverse ++ '-' :: a'.reverse := by
    simpa using congrArg List.reverse h
  obtain ⟨hdigits, ha⟩ := append_stop_inj (hdash n) (hdash n') hrev
  refine ⟨reverse_injective ha, Go.formatUint_injective ?_⟩
  rw [← String.toList_inj, Go.toList_formatUint, Go.toList_formatUint]
  exact reverse_injective hdigits

theorem unixNano_of_range {t : Time} (h : unixEpoch ≤ t ∧ t < unixEpoch + 2 ^ 63) :
    Time.unixNano t = ((t - unixEpoch).toNat : ℤ) := by
  have hpos : 0 ≤ t - unixEpoch := Int.sub_nonneg_of_le h.1
  rw [Time.unixNano, Int.bmod_eq_of_le_mul_two, Int.toNat_of_nonneg hpos]
  · linarith
  · have := h.2
    norm_num
    linarith

theorem toList_incidentID (host : String) (h : unixEpoch ≤ first ∧ first < unixEpoch + 2 ^ 63) :
    (incidentID host first).text.toList = ("INC-".toList ++ host.toList) ++
      '-' :: Nat.toDigits 10 (first - unixEpoch).toNat := by
  have harg : (toString (Time.unixNano first)).toList =
      Nat.toDigits 10 (first - unixEpoch).toNat := by
    rw [unixNano_of_range h, ← Go.toList_formatUint]
    rfl
  have hformat : "INC-%s-%d".toList = ['I', 'N', 'C', '-', '%', 's', '-', '%', 'd'] := rfl
  rw [incidentID, Go.Formatted.text, String.toList_ofList, hformat]
  simpa [Go.sprintf] using harg

theorem incidentID_text_inj {host host' : String} {first' : Time}
    (h : unixEpoch ≤ first ∧ first < unixEpoch + 2 ^ 63)
    (h' : unixEpoch ≤ first' ∧ first' < unixEpoch + 2 ^ 63)
    (htext : (incidentID host first).text = (incidentID host' first').text) :
    host = host' ∧ first = first' := by
  have hlist := congrArg String.toList htext
  rw [toList_incidentID host h, toList_incidentID host' h'] at hlist
  obtain ⟨hhost, hfirst⟩ := append_dash_inj hlist
  refine ⟨String.toList_inj.mp (append_cancel_left hhost), ?_⟩
  have hpos : 0 ≤ first - unixEpoch := Int.sub_nonneg_of_le h.1
  have hpos' : 0 ≤ first' - unixEpoch := Int.sub_nonneg_of_le h'.1
  have hsub : first - unixEpoch = first' - unixEpoch := by
    rw [← Int.toNat_of_nonneg hpos, ← Int.toNat_of_nonneg hpos', hfirst]
  linarith

end ArgusEdr.Correlate
