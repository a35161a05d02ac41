import ArgusEdr.Server.CrossHostKeys

/-!
# What cross-host detection misses

For alerts in the order of their times, the window of a key is a tracking period: it goes on for one
window from its first alert, keeps every host seen in it, and raises a signal with the alert that makes
them enough (`trace_periods`). Every span of at most a window with enough hosts is signalled in time
exactly if for every such span some period has its signal then (`signals_complete_iff`). It may not: a
new period begins with no hosts, also in the middle of a span.
-/

namespace ArgusEdr.CrossHost

open Model
open List hiding next
open Simulation (next answers trace)
open Runs (run)

variable {window minHosts : ℤ} {kind : Kind} {key : String}

/-! ## Tracking periods -/

/-- An alert no more than a window after the first of a period. -/
def inPeriod (window : ℤ) (o o' : Observation) : Bool :=
  decide (Time.sub o'.time o.time ≤ window)

/-- The alerts for a key, cut into tracking periods: each goes on for one window from its first
alert. -/
def periods (window : ℤ) : List Observation → List (List Observation)
  | [] => []
  | o :: obs =>
    (o :: obs.takeWhile (inPeriod window o)) :: periods window (obs.dropWhile (inPeriod window o))
termination_by obs => obs.length
decreasing_by
  exact Nat.lt_succ_of_le (length_dropWhile_le _ _)

theorem flatten_periods (window : ℤ) (obs : List Observation) :
    (periods window obs).flatten = obs := by
  fun_induction periods window obs with
  | case1 => rfl
  | case2 o obs ih => rw [flatten_cons, ih, cons_append, takeWhile_append_dropWhile]

variable {obs p rest : List Observation} {o o' x : Observation} {σ : Signal} {stop : Time}

theorem exists_first_of_mem_periods (hp : p ∈ periods window obs) :
    ∃ o rest, p = o :: rest ∧ ∀ o' ∈ rest, inPeriod window o o' = true := by
  fun_induction periods window obs with
  | case1 => exact absurd hp not_mem_nil
  | case2 o obs ih =>
    cases hp with
    | head => exact ⟨o, _, rfl, fun o' ho' => mem_takeWhile_imp ho'⟩
    | tail _ hp => exact ih hp

theorem current_period {w : HostWindow} (hfirst : w.first = o.time)
    (ho' : inPeriod window o o' = true) : current window o'.time (some w) = w := by
  rw [current, if_neg]
  rw [hfirst]
  exact not_lt.mpr (of_decide_eq_true ho')

theorem run_period_first (o : Observation) (hrest : ∀ o' ∈ rest, inPeriod window o o' = true) :
    ∃ w, run (next (soloStep window minHosts kind key)) none (o :: rest) = some w ∧
      w.first = o.time := by
  induction rest using List.reverseRecOn with
  | nil => exact ⟨_, rfl, hit_first _ _ _ _ _⟩
  | append_singleton rest o' ih =>
    obtain ⟨w, hrun, hfirst⟩ := ih fun x hx => hrest x (mem_append_left _ hx)
    rw [← cons_append, Runs.run_concat, hrun]
    refine ⟨_, rfl, ?_⟩
    rw [current_period hfirst (hrest o' (by simp)), hit_first]
    exact hfirst

theorem soloStep_after (hrest : ∀ x ∈ rest, inPeriod window o x = true)
    (ho' : inPeriod window o o' = false) :
    soloStep window minHosts kind key
        (run (next (soloStep window minHosts kind key)) none (o :: rest)) o' =
      soloStep window minHosts kind key none o' := by
  obtain ⟨w, hrun, hfirst⟩ := run_period_first o hrest
  have hout : window < Time.sub o'.time w.first := by
    rw [hfirst]
    exact not_le.mp (of_decide_eq_false ho')
  rw [hrun, soloStep, soloStep, current, current, if_pos hout]

theorem head?_of_mem_periods {q : List Observation} (hq : q ∈ (periods window obs).head?)
    (ho : o ∈ q.head?) : obs.head? = some o := by
  cases obs with
  | nil => rw [periods] at hq; exact absurd hq (by simp)
  | cons =>
    rw [periods] at hq
    obtain rfl := Option.some.inj hq
    exact ho

theorem trace_periods (obs : List Observation) :
    trace (soloStep window minHosts kind key) none obs =
      (periods window obs).flatMap (trace (soloStep window minHosts kind key) none) := by
  have hcut : (periods window obs).IsChain fun p q => ∀ o' ∈ q.head?,
      soloStep window minHosts kind key (run (next (soloStep window minHosts kind key)) none p) o' =
        soloStep window minHosts kind key none o' := by
    fun_induction periods window obs with
    | case1 => exact .nil
    | case2 o obs ih =>
      refine isChain_cons.mpr ⟨fun q hq o' ho' => ?_, ih⟩
      have ho : inPeriod window o o' = false := by
        have hhead := head?_dropWhile_not (inPeriod window o) obs
        rw [head?_of_mem_periods hq ho'] at hhead
        exact hhead
      exact soloStep_after (fun x hx => mem_takeWhile_imp hx) ho
  have hne : [] ∉ periods window obs := by
    intro hmem
    obtain ⟨o, rest, hnil, -⟩ := exists_first_of_mem_periods hmem
    exact absurd hnil (by simp)
  rw [← Simulation.trace_flatten hne hcut, flatten_periods]

/-! ## The hosts of a period -/

def hostsOf (obs : List Observation) : Finset String :=
  (obs.map fun o => o.record.hostname).toFinset

theorem hostsOf_concat (obs : List Observation) (o : Observation) :
    hostsOf (obs ++ [o]) = insert o.record.hostname (hostsOf obs) := by
  simp [hostsOf]

theorem card_hostsOf_le {obs' : List Observation} (h : obs ⊆ obs') :
    (hostsOf obs).card ≤ (hostsOf obs').card := by
  apply Finset.card_le_card
  intro host hhost
  rw [hostsOf, mem_toFinset] at hhost ⊢
  exact map_subset _ h hhost

/-- The alert `o` makes the hosts of the period enough, after the alerts `pre` of it. -/
def Crosses (minHosts : ℤ) (pre : List Observation) (o : Observation) : Prop :=
  ¬(pre ≠ [] ∧ minHosts ≤ (hostsOf pre).card) ∧ minHosts ≤ (hostsOf (pre ++ [o])).card

/-- The window of a period that started with `o`, after the alerts `p` of it. -/
structure Collects (minHosts : ℤ) (o : Observation) (p : List Observation) (w : HostWindow) :
    Prop where
  first_eq : w.first = o.time
  mem_hosts : ∀ host, host ∈ w.hosts ↔ host ∈ hostsOf p
  le_seen : ∀ (host : String) seen, w.hosts[host]? = some seen → o.time ≤ seen
  fired_iff : w.fired = true ↔ p ≠ [] ∧ minHosts ≤ (hostsOf p).card

theorem size_eq_card {hosts : Hosts} (h : ∀ host, host ∈ hosts ↔ host ∈ hostsOf p) :
    hosts.size = (hostsOf p).card := by
  have hnodup : hosts.keys.Nodup :=
    Std.ExtTreeMap.ordered_keys.imp fun hlt => (compare_lt_iff_lt.mp hlt).ne
  rw [← Std.ExtTreeMap.length_keys, ← toFinset_card_of_nodup hnodup]
  congr 1
  ext host
  rw [mem_toFinset, Std.ExtTreeMap.mem_keys, h]

theorem collects_nil (o : Observation) : Collects minHosts o [] { first := o.time } where
  first_eq := rfl
  mem_hosts host := by simp [hostsOf]
  le_seen host seen hseen := absurd hseen (by simp)
  fired_iff := by simp

section
variable {o x : Observation} {p : List Observation} {w : HostWindow}

theorem Collects.mem_hit (h : Collects minHosts o p w) (hwindow : 0 ≤ window)
    (hx : inPeriod window o x = true) (host : String) :
    host ∈ (w.hit window minHosts kind key x.record.hostname x.time).1.hosts ↔
      host ∈ hostsOf (p ++ [x]) := by
  rw [Std.ExtTreeMap.mem_iff_isSome_getElem?, Option.isSome_iff_exists, hostsOf_concat,
    Finset.mem_insert]
  constructor
  · rintro ⟨seen, hseen⟩
    rw [getElem?_hit_hosts] at hseen
    split at hseen
    · next hhost => exact .inl hhost
    · refine .inr ((h.mem_hosts host).mp ?_)
      rw [Std.ExtTreeMap.mem_iff_isSome_getElem?, hseen.1]
      rfl
  · intro hhost
    by_cases hnew : host = x.record.hostname
    · refine ⟨x.time, (getElem?_hit_hosts _ _ _ _ _).mpr ⟨by rw [if_pos hnew], ?_⟩⟩
      rw [Time.sub_self]
      exact hwindow
    · have hold := (h.mem_hosts host).mpr (hhost.resolve_left hnew)
      rw [Std.ExtTreeMap.mem_iff_isSome_getElem?, Option.isSome_iff_exists] at hold
      obtain ⟨seen, hseen⟩ := hold
      refine ⟨seen, (getElem?_hit_hosts _ _ _ _ _).mpr ⟨by rwa [if_neg hnew], ?_⟩⟩
      exact (Time.sub_le_sub le_rfl (h.le_seen host seen hseen)).trans (of_decide_eq_true hx)

theorem Collects.hit (h : Collects minHosts o p w) (hwindow : 0 ≤ window) (ho : o.time ≤ x.time)
    (hx : inPeriod window o x = true) :
    Collects minHosts o (p ++ [x])
      (w.hit window minHosts kind key x.record.hostname x.time).1 where
  first_eq := (hit_first _ _ _ _ _).trans h.first_eq
  mem_hosts := h.mem_hit hwindow hx
  le_seen host seen hseen := by
    rw [getElem?_hit_hosts] at hseen
    split at hseen
    · exact hseen.1 ▸ ho
    · exact h.le_seen host seen hseen.1
  fired_iff := by
    have hmono : (hostsOf p).card ≤ (hostsOf (p ++ [x])).card :=
      card_hostsOf_le (subset_append_left p [x])
    rw [hit_fired, size_eq_card (h.mem_hit hwindow hx), h.fired_iff]
    constructor
    · rintro (hbefore | hnow)
      · exact ⟨by simp, hbefore.2.trans (by exact_mod_cast hmono)⟩
      · exact ⟨by simp, hnow⟩
    · exact fun hnow => .inr hnow.2

theorem Collects.isSome_hit (h : Collects minHosts o p w) (hwindow : 0 ≤ window)
    (hx : inPeriod window o x = true) :
    (w.hit window minHosts kind key x.record.hostname x.time).2.isSome = true ↔
      Crosses minHosts p x := by
  have hsize : (w.hit window minHosts kind key x.record.hostname x.time).1.hosts.size =
      (hostsOf (p ++ [x])).card := size_eq_card (h.mem_hit hwindow hx)
  rw [Option.isSome_iff_exists, Crosses, ← h.fired_iff, Bool.not_eq_true]
  constructor
  · rintro ⟨s, hs⟩
    obtain ⟨hfired, hcount, -⟩ := (hit_snd_eq_some_iff _ _ _ _ _).mp hs
    rw [hsize] at hcount
    exact ⟨hfired, hcount⟩
  · rintro ⟨hfired, hcount⟩
    rw [← hsize] at hcount
    exact ⟨_, (hit_snd_eq_some_iff _ _ _ _ _).mpr ⟨hfired, hcount, rfl⟩⟩

end

/-- The alerts of a period, none of which is older than the first. -/
def IsPeriod (window : ℤ) (o : Observation) (p : List Observation) : Prop :=
  p.head? = some o ∧ ∀ x ∈ p, inPeriod window o x = true ∧ o.time ≤ x.time

theorem IsPeriod.of_concat (h : IsPeriod window o (p ++ [x])) :
    p = [] ∧ x = o ∨ IsPeriod window o p := by
  cases p with
  | nil => exact .inl ⟨rfl, Option.some.inj h.1⟩
  | cons => exact .inr ⟨h.1, fun z hz => h.2 z (mem_append_left _ hz)⟩

theorem exists_collects (hwindow : 0 ≤ window) (h : IsPeriod window o (p ++ [x])) :
    Collects minHosts o p
      (current window x.time (run (next (soloStep window minHosts kind key)) none p)) := by
  induction p using List.reverseRecOn generalizing x with
  | nil =>
    obtain rfl := Option.some.inj h.1
    exact collects_nil x
  | append_singleton p y ih =>
    have hp : IsPeriod window o (p ++ [y]) := (h.of_concat).resolve_left (by simp)
    obtain ⟨hy, hoy⟩ := hp.2 y (by simp)
    obtain ⟨hx, -⟩ := h.2 x (by simp)
    have hcollects : Collects minHosts o (p ++ [y]) ((current window y.time
        (run (next (soloStep window minHosts kind key)) none p)).hit window minHosts kind key
          y.record.hostname y.time).1 := (ih hp).hit hwindow hoy hy
    rw [Runs.run_concat, next, soloStep, current_period hcollects.first_eq hx]
    exact hcollects

theorem isSome_answer_iff (hwindow : 0 ≤ window) (h : IsPeriod window o (p ++ [x])) :
    (soloStep window minHosts kind key (run (next (soloStep window minHosts kind key)) none p)
      x).2.isSome = true ↔ Crosses minHosts p x :=
  (exists_collects hwindow h).isSome_hit hwindow (h.2 x (by simp)).1

theorem isPeriod_of_mem_periods (htimes : obs.Pairwise fun o o' => o.time ≤ o'.time)
    (hwindow : 0 ≤ window) (hp : p ∈ periods window obs) : ∃ o, IsPeriod window o p := by
  obtain ⟨o, rest, rfl, hrest⟩ := exists_first_of_mem_periods hp
  have hsub : (o :: rest).Sublist obs := by
    rw [← flatten_periods window obs]
    exact sublist_flatten_of_mem hp
  have hsorted := pairwise_cons.mp (htimes.sublist hsub)
  refine ⟨o, rfl, forall_mem_cons.mpr ⟨⟨?_, le_rfl⟩, fun x hx => ⟨hrest x hx, hsorted.1 x hx⟩⟩⟩
  rw [inPeriod, Time.sub_self]
  exact decide_eq_true hwindow

/-! ## Spans -/

/-- Some period has its signal with an alert that is not later than `stop` and no more than a window
before `start`. -/
def Crossed (window minHosts : ℤ) (alerts : List Observation) (start stop : Time) : Prop :=
  ∃ p ∈ periods window alerts, ∃ pre x post, p = pre ++ x :: post ∧ Crosses minHosts pre x ∧
    x.time ≤ stop ∧ Time.sub start x.time ≤ window

/-- A signal has been raised by the end of the span and no more than a window before its start. -/
def Signalled (window : ℤ) (signals : List Signal) (start stop : Time) : Prop :=
  ∃ s ∈ signals, s.lastSeen ≤ stop ∧ Time.sub start s.lastSeen ≤ window

theorem lastSeen_of_soloStep {s : Option HostWindow}
    (h : (soloStep window minHosts kind key s x).2 = some σ) : σ.lastSeen = x.time := by
  obtain ⟨-, -, rfl⟩ := (hit_snd_eq_some_iff _ _ _ _ _).mp h
  rfl

theorem IsPeriod.take {pre post : List Observation} (h : IsPeriod window o (pre ++ x :: post)) :
    IsPeriod window o (pre ++ [x]) := by
  refine ⟨?_, fun y hy => h.2 y ?_⟩
  · rw [← h.1]
    cases pre <;> rfl
  · rw [append_cons]
    exact mem_append_left post hy

theorem mem_signalsFor_iff (hroom : (keysOf kind obs).card < maxTrackedKeys)
    (htimes : obs.Pairwise fun o o' => o.time ≤ o'.time) :
    σ ∈ signalsFor kind key (signals window minHosts obs) ↔
      ∃ p ∈ periods window (obs.filter (touches kind key)), ∃ pre x post, p = pre ++ x :: post ∧
        (soloStep window minHosts kind key
          (run (next (soloStep window minHosts kind key)) none pre) x).2 = some σ := by
  rw [signalsFor_eq hroom (InOrderFor.of_pairwise htimes), ← Simulation.map_snd_trace, trace_periods,
    mem_flatMap]
  constructor
  · rintro ⟨r, hr, hσ⟩
    obtain ⟨q, hq, rfl⟩ := mem_map.mp hr
    obtain ⟨p, hp, hq⟩ := mem_flatMap.mp hq
    obtain ⟨before, after, hsplit⟩ := append_of_mem hq
    obtain ⟨pre, post, rfl, -, hanswer⟩ := Simulation.trace_eq_split hsplit
    exact ⟨_, hp, pre, q.1, post, rfl, by rw [← hanswer]; exact Option.mem_toList.mp hσ⟩
  · rintro ⟨p, hp, pre, x, post, rfl, hσ⟩
    refine ⟨some σ, mem_map.mpr ⟨(x, some σ), mem_flatMap.mpr ⟨_, hp, ?_⟩, rfl⟩, by simp⟩
    rw [Simulation.trace_append, Simulation.trace_cons, hσ]
    exact mem_append_right _ mem_cons_self

theorem signalled_iff_crossed (hroom : (keysOf kind obs).card < maxTrackedKeys)
    (htimes : obs.Pairwise fun o o' => o.time ≤ o'.time) (hwindow : 0 ≤ window)
    (start stop : Time) :
    Signalled window (signalsFor kind key (signals window minHosts obs)) start stop ↔
      Crossed window minHosts (obs.filter (touches kind key)) start stop := by
  have hsorted : (obs.filter (touches kind key)).Pairwise fun o o' => o.time ≤ o'.time :=
    htimes.sublist filter_sublist
  constructor
  · rintro ⟨σ, hσ, hstop, hstart⟩
    obtain ⟨p, hp, pre, x, post, rfl, hanswer⟩ := (mem_signalsFor_iff hroom htimes).mp hσ
    obtain ⟨o, hperiod⟩ := isPeriod_of_mem_periods hsorted hwindow hp
    rw [lastSeen_of_soloStep hanswer] at hstop hstart
    refine ⟨_, hp, pre, x, post, rfl, ?_, hstop, hstart⟩
    exact (isSome_answer_iff hwindow hperiod.take).mp (by rw [hanswer]; rfl)
  · rintro ⟨p, hp, pre, x, post, rfl, hcrosses, hstop, hstart⟩
    obtain ⟨o, hperiod⟩ := isPeriod_of_mem_periods hsorted hwindow hp
    have hsome : (soloStep window minHosts kind key
        (run (next (soloStep window minHosts kind key)) none pre) x).2.isSome = true :=
      (isSome_answer_iff hwindow hperiod.take).mpr hcrosses
    obtain ⟨σ, hσ⟩ := Option.isSome_iff_exists.mp hsome
    have hlast := lastSeen_of_soloStep hσ
    exact ⟨σ, (mem_signalsFor_iff hroom htimes).mpr ⟨_, hp, pre, x, post, rfl, hσ⟩,
      hlast.trans_le hstop, by rwa [hlast]⟩

structure Qualifies (window minHosts : ℤ) (alerts : List Observation) (start stop : Time) :
    Prop where
  start_le : start ≤ stop
  span_le : Time.sub stop start ≤ window
  enough : minHosts ≤
    (hostsOf (alerts.filter fun o => decide (start ≤ o.time ∧ o.time ≤ stop))).card

theorem exists_crosses (hp : p ≠ []) (hcount : minHosts ≤ (hostsOf p).card) :
    ∃ pre x post, p = pre ++ x :: post ∧ Crosses minHosts pre x := by
  induction p using List.reverseRecOn with
  | nil => exact absurd rfl hp
  | append_singleton p x ih =>
    by_cases hbefore : p ≠ [] ∧ minHosts ≤ (hostsOf p).card
    · obtain ⟨pre, y, post, hsplit, hcrosses⟩ := ih hbefore.1 hbefore.2
      refine ⟨pre, y, post ++ [x], ?_, hcrosses⟩
      rw [hsplit, append_assoc, cons_append]
    · exact ⟨p, x, [], rfl, hbefore, hcount⟩

theorem mem_takeWhile_of_le (hsorted : p.Pairwise fun o o' => o.time ≤ o'.time) {y : Observation}
    (hy : y ∈ p) (hle : y.time ≤ stop) : y ∈ p.takeWhile fun o => decide (o.time ≤ stop) := by
  induction p with
  | nil => exact absurd hy not_mem_nil
  | cons z p ih =>
    obtain ⟨hz, hrest⟩ := pairwise_cons.mp hsorted
    have hzle : z.time ≤ stop := by
      cases hy with
      | head => exact hle
      | tail _ hy => exact (hz y hy).trans hle
    rw [takeWhile_cons, if_pos (decide_eq_true hzle)]
    cases hy with
    | head => exact mem_cons_self
    | tail _ hy => exact mem_cons_of_mem z (ih hrest hy)

theorem crossed_of_one_period {alerts : List Observation}
    (htimes : alerts.Pairwise fun o o' => o.time ≤ o'.time) (hwindow : 0 ≤ window)
    (hp : p ∈ periods window alerts) {start : Time} {a : Observation} (ha : a ∈ p)
    (hstart : start ≤ a.time) (hstop : a.time ≤ stop)
    (henough : minHosts ≤
      (hostsOf (p.filter fun o => decide (start ≤ o.time ∧ o.time ≤ stop))).card) :
    Crossed window minHosts alerts start stop := by
  obtain ⟨o, hperiod⟩ := isPeriod_of_mem_periods htimes hwindow hp
  have hsorted : p.Pairwise fun o o' => o.time ≤ o'.time := by
    refine htimes.sublist ?_
    rw [← flatten_periods window alerts]
    exact sublist_flatten_of_mem hp
  -- the alerts of the period up to the end of the span are enough
  have hcount : minHosts ≤ (hostsOf (p.takeWhile fun o => decide (o.time ≤ stop))).card := by
    refine henough.trans (Int.ofNat_le.mpr (card_hostsOf_le fun y hy => ?_))
    obtain ⟨hyp, hspan⟩ := mem_filter.mp hy
    exact mem_takeWhile_of_le hsorted hyp (of_decide_eq_true hspan).2
  obtain ⟨pre, x, post, hsplit, hcrosses⟩ :=
    exists_crosses (ne_nil_of_mem (mem_takeWhile_of_le hsorted ha hstop)) hcount
  have hx : x ∈ p.takeWhile fun o => decide (o.time ≤ stop) := by
    rw [hsplit]
    simp
  have hxp := (takeWhile_sublist _).subset hx
  have hxstop : x.time ≤ stop := by simpa using mem_takeWhile_imp hx
  refine ⟨p, hp, pre, x, post ++ p.dropWhile (fun o => decide (o.time ≤ stop)), ?_, hcrosses,
    hxstop, ?_⟩
  · rw [← cons_append, ← append_assoc, ← hsplit, takeWhile_append_dropWhile]
  · calc Time.sub start x.time
        ≤ Time.sub a.time o.time := Time.sub_le_sub hstart (hperiod.2 x hxp).2
      _ ≤ window := of_decide_eq_true (hperiod.2 a ha).1

/-- Cross-host detection is complete for a key exactly if in every span of at most a window whose
alerts come from enough hosts, or in the window before it, some tracking period brings enough hosts
together. -/
theorem signals_complete_iff (window minHosts : ℤ) (kind : Kind) (key : String)
    {obs : List Observation} (hroom : (keysOf kind obs).card < maxTrackedKeys)
    (htimes : obs.Pairwise fun o o' => o.time ≤ o'.time) :
    (∀ start stop, Qualifies window minHosts (obs.filter (touches kind key)) start stop →
        Signalled window (signalsFor kind key (signals window minHosts obs)) start stop) ↔
      ∀ start stop, Qualifies window minHosts (obs.filter (touches kind key)) start stop →
        Crossed window minHosts (obs.filter (touches kind key)) start stop := by
  refine forall₂_congr fun start stop => forall_congr' fun hq => ?_
  have hwindow : 0 ≤ window := (Time.sub_nonneg hq.start_le).trans hq.span_le
  exact signalled_iff_crossed hroom htimes hwindow start stop

/-- Two hosts in one period. -/
theorem signals_complete_one_period :
    let alert (host : String) (time : Time) : Observation :=
      { record := { hostname := host, techniqueID := "T1021", time } }
    let obs := [alert "web-01" 1, alert "db-01" 2]
    ∀ start stop, Qualifies 10 2 (obs.filter (touches .lateralMovement "T1021")) start stop →
      Signalled 10 (signalsFor .lateralMovement "T1021" (signals 10 2 obs)) start stop := by
  intro alert obs
  have htimes : obs.Pairwise fun o o' => o.time ≤ o'.time := by
    simp [obs, alert, Observation.time]
  have hkeys : (keysOf .lateralMovement obs).card < maxTrackedKeys := by decide +kernel
  refine (signals_complete_iff 10 2 .lateralMovement "T1021" hkeys htimes).mpr ?_
  intro start stop hq
  have hall : obs.filter (touches .lateralMovement "T1021") = obs := rfl
  rw [hall] at hq ⊢
  have hone : obs ∈ periods 10 obs := by
    simp [periods, obs, inPeriod, alert, Observation.time, Time.sub]
  obtain ⟨a, ha⟩ : ∃ a, a ∈ obs.filter fun o => decide (start ≤ o.time ∧ o.time ≤ stop) := by
    refine exists_mem_of_ne_nil _ fun hnil => ?_
    have henough := hq.enough
    rw [hnil] at henough
    exact absurd henough (by decide)
  obtain ⟨hmem, hspan⟩ := mem_filter.mp ha
  obtain ⟨hstart, hstop⟩ := of_decide_eq_true hspan
  exact crossed_of_one_period htimes (by decide) hone hmem hstart hstop hq.enough

/-- One host twice, a window apart, and right after it another: the second alert is the last of the
first period, and the third starts the next. -/
theorem restart_hides_signal :
    let alert (host : String) (time : Time) : Observation :=
      { record := { hostname := host, techniqueID := "T1021", time } }
    let obs := [alert "web-01" 1, alert "web-01" 11, alert "db-01" 12]
    (hostsOf ((obs.filter (touches .lateralMovement "T1021")).filter
        fun o => decide (11 ≤ o.time ∧ o.time ≤ 12))).card = 2 ∧
      Time.sub 12 11 ≤ 10 ∧ signals 10 2 obs = [] := by
  decide +kernel

end ArgusEdr.CrossHost
