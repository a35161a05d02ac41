import ArgusEdr.Server.CrossHostSteps

/-!
# Cross-host signals are well formed

The signals of a key are kept apart by its window: `Guards` is what a window, or its absence, says
about a signal raised before.
-/

namespace ArgusEdr.CrossHost

open Correlator (observe)
open List hiding next
open Model
open Simulation (next answers)
open Runs (run)

variable {window minHosts : ℤ}

/-! ## Adding a host to a window -/

section Hit
variable (w : HostWindow) (kind : Kind) (key host : String) (now : Time)

theorem hit_first : (w.hit window minHosts kind key host now).1.first = w.first := by
  unfold HostWindow.hit
  dsimp only
  split <;> rfl

theorem hit_hosts : (w.hit window minHosts kind key host now).1.hosts =
    pruneExpired (w.hosts.insert host now) now window := by
  unfold HostWindow.hit
  dsimp only
  split <;> rfl

theorem hit_fired : (w.hit window minHosts kind key host now).1.fired = true ↔
    w.fired = true ∨
      minHosts ≤ ((w.hit window minHosts kind key host now).1.hosts.size : ℤ) := by
  rw [hit_hosts]
  unfold HostWindow.hit
  dsimp only
  split
  · next h => simpa using fun hle => h.resolve_right (not_lt.mpr hle)
  · next h => simpa using .inr (not_lt.mp fun hlt => h (.inr hlt))

theorem hit_snd_eq_some_iff {s : Signal} : (w.hit window minHosts kind key host now).2 = some s ↔
    w.fired = false ∧ minHosts ≤ ((w.hit window minHosts kind key host now).1.hosts.size : ℤ) ∧
      s =
        { kind, key, hosts := sortedKeys (w.hit window minHosts kind key host now).1.hosts
          firstSeen := w.first, lastSeen := now
          summary := summarize kind key
            (sortedKeys (w.hit window minHosts kind key host now).1.hosts) } := by
  rw [hit_hosts]
  unfold HostWindow.hit
  dsimp only
  split
  · next h =>
    refine iff_of_false (by simp) fun hs => ?_
    cases h with
    | inl h => rw [hs.1] at h; exact absurd h (by simp)
    | inr h => exact absurd h (not_lt.mpr hs.2.1)
  · next h =>
    rw [not_or, not_lt, Bool.not_eq_true] at h
    rw [Option.some_inj, eq_comm]
    exact ⟨fun hs => ⟨h.1, h.2, hs⟩, fun hs => hs.2.2⟩

theorem getElem?_hit_hosts {other : String} {seen : Time} :
    (w.hit window minHosts kind key host now).1.hosts[other]? = some seen ↔
      (if other = host then seen = now else w.hosts[other]? = some seen) ∧
        Time.sub now seen ≤ window := by
  rw [hit_hosts, getElem?_pruneExpired_eq_some, Std.ExtTreeMap.getElem?_insert]
  by_cases hother : other = host
  · rw [if_pos (compare_eq_iff_eq.mpr hother.symm), if_pos hother, Option.some_inj, eq_comm]
  · rw [if_neg fun heq => hother (compare_eq_iff_eq.mp heq).symm, if_neg hother]

end Hit

variable {hosts : Hosts} {host key : String} {now t t' f : Time} {a : Option HostWindow}
  {w : HostWindow} {history obs : List Observation} {kind : Kind} {o : Observation} {s : Signal}

theorem mem_sortedKeys : host ∈ sortedKeys hosts ↔ ∃ seen, hosts[host]? = some seen := by
  rw [sortedKeys, Std.ExtTreeMap.mem_keys, Std.ExtTreeMap.mem_iff_isSome_getElem?,
    Option.isSome_iff_exists]

theorem pairwise_sortedKeys (hosts : Hosts) : (sortedKeys hosts).Pairwise (· < ·) :=
  Std.ExtTreeMap.ordered_keys.imp fun h => compare_lt_iff_lt.mp h

/-! ## Who raised the alerts -/

/-- Every host of a window has raised an alert for its key, at the time it is kept with. -/
def Witnessed (history : List Observation) (kind : Kind) (key : String) (w : HostWindow) : Prop :=
  ∀ host seen, w.hosts[host]? = some seen →
    ∃ o ∈ history, touches kind key o = true ∧ o.record.hostname = host ∧ o.time = seen

theorem getElem?_hosts_of_aged (h : Aged window now a (some w)) :
    ∃ w', a = some w' ∧ w.first = w'.first ∧ w.fired = w'.fired ∧
      ∀ (host : String) seen, w.hosts[host]? = some seen → w'.hosts[host]? = some seen := by
  cases h with
  | inl h => exact ⟨w, h.symm, rfl, rfl, fun _ _ hseen => hseen⟩
  | inr h =>
    cases a with
    | none => exact absurd h (by simp [swept])
    | some w' =>
      rw [swept] at h
      split at h
      · exact absurd h (by simp)
      · obtain rfl := Option.some.inj h
        exact ⟨w', rfl, rfl, rfl, fun _ _ hseen => (getElem?_pruneExpired_eq_some.mp hseen).1⟩

theorem Witnessed.mono {history' : List Observation} (h : Witnessed history kind key w)
    (hsub : history ⊆ history') : Witnessed history' kind key w := by
  intro host seen hseen
  obtain ⟨o, ho, hrest⟩ := h host seen hseen
  exact ⟨o, hsub ho, hrest⟩

theorem witnessed_hit (ha : ∀ w, a = some w → Witnessed history kind key w) (ho : o ∈ history)
    (htouches : touches kind key o = true) :
    Witnessed history kind key ((current window o.time a).hit window minHosts kind key
      o.record.hostname o.time).1 := by
  have hcurrent : Witnessed history kind key (current window o.time a) := by
    cases a with
    | none => exact fun host seen hseen => absurd hseen (by simp [current])
    | some w =>
      rw [current]
      split
      · exact fun host seen hseen => absurd hseen (by simp)
      · exact ha w rfl
  intro host seen hseen
  rw [getElem?_hit_hosts] at hseen
  split at hseen
  · next hhost => exact ⟨o, ho, htouches, hhost.symm, hseen.1.symm⟩
  · exact hcurrent host seen hseen.1

theorem witnessed_run (window minHosts : ℤ) (obs : List Observation) (kind : Kind) (key : String)
    (h : ((run (next observe) (newCrossHost window minHosts) obs).index kind)[key]? =
      some w) : Witnessed obs kind key w := by
  induction obs using List.reverseRecOn generalizing w with
  | nil => cases kind <;> exact absurd h (by simp [Correlator.index, newCrossHost])
  | append_singleton pre o ih =>
    rw [Runs.run_concat, next] at h
    generalize run (next observe) (newCrossHost window minHosts) pre = c at ih h
    obtain ⟨b, haged, hentry⟩ := entry_observe c o kind key
    -- a sweep only drops hosts, and the alert adds its own
    have hb : ∀ w, b = some w → Witnessed (pre ++ [o]) kind key w := by
      intro w hw
      obtain ⟨w', hw', -, -, hsub⟩ := getElem?_hosts_of_aged (hw ▸ haged)
      have hold := (ih hw').mono (subset_append_left pre [o])
      exact fun host seen hseen => hold host seen (hsub host seen hseen)
    cases hentry with
    | inl hentry =>
      obtain rfl := Option.some.inj (hentry.2.1.symm.trans h)
      exact witnessed_hit hb (by simp) hentry.1
    | inr hentry => exact hb w (hentry.1.symm.trans h)

/-! ## Windows in the order of time -/

theorem exists_host_of_not_isEmpty (h : ¬hosts.isEmpty = true) :
    ∃ (host : String) (seen : Time), hosts[host]? = some seen := by
  rw [Std.ExtTreeMap.isEmpty_iff, Std.ExtTreeMap.eq_empty_iff_forall_not_mem, not_forall] at h
  obtain ⟨host, hhost⟩ := h
  rw [not_not, Std.ExtTreeMap.mem_iff_isSome_getElem?, Option.isSome_iff_exists] at hhost
  exact ⟨host, hhost⟩

/-- A window as it stands at the time `t`, when the alerts came in the order of their times. -/
structure Sound (window : ℤ) (t : Time) (w : HostWindow) : Prop where
  first_le : w.first ≤ t
  first_le_seen : ∀ (host : String) seen, w.hosts[host]? = some seen → w.first ≤ seen
  exists_host : 0 ≤ window → ∃ (host : String) (seen : Time), w.hosts[host]? = some seen

theorem Sound.mono (h : Sound window t w) (ht : t ≤ t') : Sound window t' w :=
  { h with first_le := h.first_le.trans ht }

theorem Sound.lt_sub_of_swept (h : Sound window t w) (ht : t ≤ now)
    (hswept : swept window now (some w) = none) : window < Time.sub now w.first := by
  rw [swept] at hswept
  split at hswept
  · next hempty =>
    by_cases hwindow : 0 ≤ window
    · obtain ⟨host, seen, hseen⟩ := h.exists_host hwindow
      by_contra hle
      have hkept : (pruneExpired w.hosts now window)[host]? = some seen := by
        refine getElem?_pruneExpired_eq_some.mpr ⟨hseen, ?_⟩
        exact (Time.sub_le_sub le_rfl (h.first_le_seen host seen hseen)).trans (not_lt.mp hle)
      rw [Std.ExtTreeMap.isEmpty_iff.mp hempty] at hkept
      exact absurd hkept (by simp)
    · exact (not_le.mp hwindow).trans_le (Time.sub_nonneg (h.first_le.trans ht))
  · exact absurd hswept (by simp)

theorem Sound.aged (ha : ∀ w, a = some w → Sound window t w) (h : Aged window now a (some w)) :
    Sound window t w := by
  obtain ⟨w', rfl, hfirst, -, hsub⟩ := getElem?_hosts_of_aged h
  have hw' := ha w' rfl
  refine ⟨hfirst ▸ hw'.first_le, fun host seen hseen => ?_, fun hwindow => ?_⟩
  · exact hfirst ▸ hw'.first_le_seen host seen (hsub host seen hseen)
  · cases h with
    | inl h => exact Option.some.inj h ▸ hw'.exists_host hwindow
    | inr h =>
      rw [swept] at h
      split at h
      · exact absurd h (by simp)
      · next hne =>
        obtain rfl := Option.some.inj h
        exact exists_host_of_not_isEmpty hne

theorem sound_hit (ha : ∀ w, a = some w → Sound window t w) (ht : t ≤ now) (kind : Kind)
    (key host : String) :
    Sound window now ((current window now a).hit window minHosts kind key host now).1 := by
  have hcurrent : (current window now a).first ≤ now ∧
      ∀ (host : String) seen, (current window now a).hosts[host]? = some seen →
        (current window now a).first ≤ seen := by
    cases a with
    | none => exact ⟨le_rfl, fun host seen hseen => absurd hseen (by simp [current])⟩
    | some w =>
      rw [current]
      split
      · exact ⟨le_rfl, fun host seen hseen => absurd hseen (by simp)⟩
      · exact ⟨((ha w rfl).mono ht).first_le, (ha w rfl).first_le_seen⟩
  refine ⟨(hit_first _ _ _ _ _).trans_le hcurrent.1, fun other seen hseen => ?_, fun hwindow => ?_⟩
  · rw [hit_first]
    rw [getElem?_hit_hosts] at hseen
    split at hseen
    · exact hseen.1 ▸ hcurrent.1
    · exact hcurrent.2 other seen hseen.1
  · refine ⟨host, now, (getElem?_hit_hosts _ _ _ _ _).mpr ⟨?_, ?_⟩⟩
    · rw [if_pos rfl]
    · rw [Time.sub_self]
      exact hwindow

theorem run_window (window minHosts : ℤ) (obs : List Observation) :
    (run (next observe) (newCrossHost window minHosts) obs).window = window ∧
      (run (next observe) (newCrossHost window minHosts) obs).minHosts = minHosts := by
  refine Runs.run_invariant (I := fun c : Correlator => c.window = window ∧ c.minHosts = minHosts)
    ⟨rfl, rfl⟩ ?_ obs
  intro c o h
  obtain ⟨hwindow, hminHosts⟩ := observe_window c o
  exact ⟨hwindow.trans h.1, hminHosts.trans h.2⟩

theorem sound_run (htimes : obs.Pairwise fun o o' => o.time ≤ o'.time)
    (ht : ∀ o ∈ obs, o.time ≤ t)
    (h : ((run (next observe) (newCrossHost window minHosts) obs).index kind)[key]? =
      some w) : Sound window t w := by
  induction obs using List.reverseRecOn generalizing t w with
  | nil => cases kind <;> exact absurd h (by simp [Correlator.index, newCrossHost])
  | append_singleton pre o ih =>
    obtain ⟨hpre, -, hlast⟩ := pairwise_append.mp htimes
    -- the windows before the last alert are sound at its time
    have hsound := fun w => ih hpre (fun o' ho' => hlast o' ho' o (by simp)) (w := w)
    have ho : o.time ≤ t := ht o (by simp)
    obtain ⟨hwindow, -⟩ := run_window window minHosts pre
    rw [Runs.run_concat, next] at h
    generalize run (next observe) (newCrossHost window minHosts) pre = c at hsound h hwindow
    obtain ⟨b, haged, hentry⟩ := entry_observe c o kind key
    rw [hwindow] at haged hentry
    have hb : ∀ w, b = some w → Sound window o.time w := by
      intro w hw
      exact Sound.aged hsound (hw ▸ haged)
    cases hentry with
    | inl hentry =>
      obtain rfl := Option.some.inj (hentry.2.1.symm.trans h)
      exact (sound_hit hb le_rfl kind key o.record.hostname).mono ho
    | inr hentry => exact (hb w (hentry.1.symm.trans h)).mono ho

/-! ## Signals raised before -/

/-- What the window of a key says at the time `t` about a signal raised for the key with the first
alert at `f`: it is that signal's window still, or its first alert is more than a window later; a
missing window has run out. -/
def Guards (window : ℤ) (t f : Time) : Option HostWindow → Prop
  | none => window < Time.sub t f
  | some w => f ≤ w.first ∧ (w.fired = true ∧ w.first = f ∨ window < Time.sub w.first f)

theorem Guards.mono (h : Guards window t f a) (ht : t ≤ t') : Guards window t' f a := by
  cases a with
  | none => exact lt_of_lt_of_le h (Time.sub_le_sub ht le_rfl)
  | some => exact h

theorem Guards.aged {b : Option HostWindow} (h : Guards window t f a)
    (ha : ∀ w, a = some w → Sound window t w) (ht : t ≤ now) (hab : Aged window now a b) :
    Guards window now f b := by
  cases hb : b with
  | some =>
    obtain ⟨w', rfl, hfirst, hfired, -⟩ := getElem?_hosts_of_aged (hb ▸ hab)
    rw [Guards, hfirst, hfired]
    exact h
  | none =>
    subst hb
    cases a with
    | none => exact h.mono ht
    | some w =>
      have hgone : swept window now (some w) = none :=
        hab.elim (fun h => absurd h (by simp)) fun h => h.symm
      exact ((ha w rfl).lt_sub_of_swept ht hgone).trans_le (Time.sub_le_sub le_rfl h.1)

theorem Guards.current (h : Guards window now f a) (ha : ∀ w, a = some w → Sound window now w)
    (hf : f ≤ now) :
    f ≤ (current window now a).first ∧
      ((current window now a).fired = true ∧ (current window now a).first = f ∨
        window < Time.sub (current window now a).first f) := by
  cases a with
  | none => exact ⟨hf, .inr h⟩
  | some w =>
    rw [CrossHost.current]
    split
    · next hout =>
      exact ⟨h.1.trans (ha w rfl).first_le, .inr (hout.trans_le (Time.sub_le_sub le_rfl h.1))⟩
    · exact h

theorem Guards.hit (h : Guards window now f a) (ha : ∀ w, a = some w → Sound window now w)
    (hf : f ≤ now) (kind : Kind) (key host : String) :
    Guards window now f
      (some ((CrossHost.current window now a).hit window minHosts kind key host now).1) := by
  obtain ⟨hle, hcases⟩ := h.current ha hf
  rw [Guards, hit_first, hit_fired]
  exact ⟨hle, hcases.imp_left fun h => ⟨.inl h.1, h.2⟩⟩

theorem Guards.lt_of_signal (h : Guards window now f a) (ha : ∀ w, a = some w → Sound window now w)
    (hf : f ≤ now)
    (hs : ((CrossHost.current window now a).hit window minHosts kind key host now).2 = some s) :
    window < Time.sub s.firstSeen f := by
  obtain ⟨hfired, -, rfl⟩ := (hit_snd_eq_some_iff _ _ _ _ _).mp hs
  obtain ⟨-, hcases⟩ := h.current ha hf
  refine hcases.resolve_left fun h => ?_
  rw [hfired] at h
  exact absurd h.1 (by simp)

theorem exists_window_of_mem_observe {c : Correlator} (hs : s ∈ (c.observe o).2) :
    ∃ b, Aged c.window o.time (c.index s.kind)[s.key]? b ∧ touches s.kind s.key o = true ∧
      ((c.observe o).1.index s.kind)[s.key]? = some ((current c.window o.time b).hit c.window
        c.minHosts s.kind s.key o.record.hostname o.time).1 ∧
      ((current c.window o.time b).hit c.window c.minHosts s.kind s.key o.record.hostname
        o.time).2 = some s := by
  have htrack := mem_observe.mp hs
  obtain ⟨b, haged, hentry⟩ := entry_observe c o s.kind s.key
  rw [signalOf_observe, htrack] at hentry
  have htouches := (trackKind_signal htrack).2
  cases hentry with
  | inl hentry => exact ⟨b, haged, htouches, hentry.2.1, hentry.2.2.symm⟩
  | inr hentry => exact absurd (hentry.2 htouches).2.1 (by simp)

def signals (window minHosts : ℤ) (obs : List Observation) : List Signal :=
  (answers observe (newCrossHost window minHosts) obs).flatten

theorem signals_concat (window minHosts : ℤ) (obs : List Observation) (o : Observation) :
    signals window minHosts (obs ++ [o]) = signals window minHosts obs ++
      ((run (next observe) (newCrossHost window minHosts) obs).observe o).2 := by
  rw [signals, Simulation.answers_concat, flatten_append, signals]
  simp

theorem pairwise_kind_observe (c : Correlator) (o : Observation) :
    (c.observe o).2.Pairwise fun s s' => s.kind ≠ s'.kind := by
  rw [observe_snd, pairwise_append]
  refine ⟨?_, ?_, ?_⟩
  · cases ((c.sweepExpired o.time).trackKind o .lateralMovement).2 <;> simp
  · cases ((c.sweepExpired o.time).trackKind o .c2FanIn).2 <;> simp
  · intro s hs s' hs'
    rw [Option.mem_toList] at hs hs'
    rw [(trackKind_signal hs).1, (trackKind_signal hs').1]
    decide

section Step
variable {c : Correlator} {o : Observation}

def AllSound (c : Correlator) (t : Time) : Prop :=
  ∀ kind (key : String) w, (c.index kind)[key]? = some w → Sound c.window t w

theorem guards_observe (hc : AllSound c o.time) (hf : s.firstSeen ≤ o.time)
    (h : Guards c.window o.time s.firstSeen (c.index s.kind)[s.key]?) :
    Guards c.window o.time s.firstSeen ((c.observe o).1.index s.kind)[s.key]? := by
  obtain ⟨b, haged, hentry⟩ := entry_observe c o s.kind s.key
  have hb := h.aged (hc s.kind s.key) le_rfl haged
  cases hentry with
  | inl hentry =>
    rw [hentry.2.1]
    refine hb.hit (fun w hw => ?_) hf s.kind s.key o.record.hostname
    exact Sound.aged (hc s.kind s.key) (hw ▸ haged)
  | inr hentry => rwa [hentry.1]

theorem guards_new (hc : AllSound c o.time) (hs : s ∈ (c.observe o).2) :
    s.firstSeen ≤ o.time ∧
      Guards c.window o.time s.firstSeen ((c.observe o).1.index s.kind)[s.key]? := by
  obtain ⟨b, haged, -, hentry, hsignal⟩ := exists_window_of_mem_observe hs
  have hb : ∀ w, b = some w → Sound c.window o.time w := fun w hw =>
    Sound.aged (hc s.kind s.key) (hw ▸ haged)
  obtain ⟨-, hcount, heq⟩ := (hit_snd_eq_some_iff _ _ _ _ _).mp hsignal
  have hfirst : s.firstSeen = (current c.window o.time b).first := by rw [heq]
  have hsound : Sound c.window o.time ((current c.window o.time b).hit c.window c.minHosts s.kind
      s.key o.record.hostname o.time).1 := sound_hit hb le_rfl s.kind s.key o.record.hostname
  rw [hentry, hfirst]
  refine ⟨(hit_first _ _ _ _ _).symm.trans_le hsound.first_le, ?_⟩
  rw [Guards, hit_first, hit_fired]
  exact ⟨le_rfl, .inl ⟨.inr hcount, rfl⟩⟩

theorem lt_sub_of_mem_observe (hc : AllSound c o.time) {s' : Signal} (hf : s.firstSeen ≤ o.time)
    (h : Guards c.window o.time s.firstSeen (c.index s.kind)[s.key]?) (hs' : s' ∈ (c.observe o).2)
    (hkind : s.kind = s'.kind) (hkey : s.key = s'.key) :
    c.window < Time.sub s'.firstSeen s.firstSeen := by
  obtain ⟨b, haged, -, -, hsignal⟩ := exists_window_of_mem_observe hs'
  rw [hkind, hkey] at h
  refine (h.aged (hc s'.kind s'.key) le_rfl haged).lt_of_signal (fun w hw => ?_) hf hsignal
  exact Sound.aged (hc s'.kind s'.key) (hw ▸ haged)

end Step

theorem allSound_run {pre : List Observation} (htimes : pre.Pairwise fun o o' => o.time ≤ o'.time)
    (ht : ∀ o ∈ pre, o.time ≤ t) :
    AllSound (run (next observe) (newCrossHost window minHosts) pre) t := by
  intro kind key w h
  rw [(run_window window minHosts pre).1]
  exact sound_run htimes ht h

/-- Along a run in the order of time, the windows guard the signals raised so far, and these are
more than a window apart. -/
theorem guards_run (htimes : obs.Pairwise fun o o' => o.time ≤ o'.time) :
    (∀ s ∈ signals window minHosts obs, ∀ t, (∀ o ∈ obs, o.time ≤ t) →
        s.firstSeen ≤ t ∧ Guards window t s.firstSeen
          ((run (next observe) (newCrossHost window minHosts) obs).index s.kind)[s.key]?) ∧
      (signals window minHosts obs).Pairwise fun s s' =>
        s.kind = s'.kind → s.key = s'.key → window < Time.sub s'.firstSeen s.firstSeen := by
  induction obs using List.reverseRecOn with
  | nil => simp [signals]
  | append_singleton pre o ih =>
    obtain ⟨hpre, -, hlast⟩ := pairwise_append.mp htimes
    have hbefore : ∀ o' ∈ pre, o'.time ≤ o.time := fun o' ho' => hlast o' ho' o (by simp)
    obtain ⟨hguards, hapart⟩ := ih hpre
    have hsound : AllSound (run (next observe) (newCrossHost window minHosts) pre) o.time :=
      allSound_run hpre hbefore
    obtain ⟨hwindow, -⟩ := run_window window minHosts pre
    rw [signals_concat, Runs.run_concat, next]
    generalize run (next observe) (newCrossHost window minHosts) pre = c
      at hguards hsound hwindow ⊢
    subst hwindow
    refine ⟨fun s hs t ht => ?_, pairwise_append.mpr ⟨hapart, ?_, fun s hs s' hs' => ?_⟩⟩
    · have ho : o.time ≤ t := ht o (by simp)
      cases mem_append.mp hs with
      | inl hs =>
        obtain ⟨hf, hguard⟩ := hguards s hs o.time hbefore
        exact ⟨hf.trans ho, (guards_observe hsound hf hguard).mono ho⟩
      | inr hs =>
        obtain ⟨hf, hguard⟩ := guards_new hsound hs
        exact ⟨hf.trans ho, hguard.mono ho⟩
    · exact (pairwise_kind_observe c o).imp fun hne hkind => absurd hkind hne
    · obtain ⟨hf, hguard⟩ := hguards s hs o.time hbefore
      exact lt_sub_of_mem_observe hsound hf hguard hs'

/-! ## The correlator -/

/-- What a signal says when an alert raises it. -/
structure WellFormed (window minHosts : ℤ) (history : List Observation) (now : Time) (s : Signal) :
    Prop where
  sorted : s.hosts.Pairwise (· < ·)
  enough : minHosts ≤ s.hosts.length
  recent : ∀ host ∈ s.hosts, ∃ o ∈ history, touches s.kind s.key o = true ∧
    o.record.hostname = host ∧ Time.sub now o.time ≤ window

theorem wellFormed_observe (window minHosts : ℤ) (pre : List Observation) (o : Observation)
    (hs : s ∈ ((run (next observe) (newCrossHost window minHosts) pre).observe o).2) :
    WellFormed window minHosts (pre ++ [o]) o.time s := by
  obtain ⟨b, -, -, hentry, hsignal⟩ := exists_window_of_mem_observe hs
  obtain ⟨-, hcount, heq⟩ := (hit_snd_eq_some_iff _ _ _ _ _).mp hsignal
  have hwitnessed := witnessed_run window minHosts (pre ++ [o]) s.kind s.key
    (by rw [Runs.run_concat]; exact hentry)
  obtain ⟨hwindow, hminHosts⟩ := run_window window minHosts pre
  rw [hwindow, hminHosts] at hcount hwitnessed heq
  have hhosts : s.hosts = sortedKeys ((current window o.time b).hit window minHosts s.kind s.key
      o.record.hostname o.time).1.hosts := by rw [heq]
  refine ⟨?_, ?_, fun host hhost => ?_⟩
  · rw [hhosts]
    exact pairwise_sortedKeys _
  · rw [hhosts, sortedKeys, Std.ExtTreeMap.length_keys]
    exact hcount
  · rw [hhosts, mem_sortedKeys] at hhost
    obtain ⟨seen, hseen⟩ := hhost
    obtain ⟨o', ho', htouches, hhost, htime⟩ := hwitnessed host seen hseen
    exact ⟨o', ho', htouches, hhost, htime ▸ ((getElem?_hit_hosts _ _ _ _ _).mp hseen).2⟩

theorem size_index_run_le (window minHosts : ℤ) (obs : List Observation) (kind : Kind) :
    ((run (next observe) (newCrossHost window minHosts) obs).index kind).size ≤
      maxTrackedKeys := by
  refine Runs.run_invariant (I := fun c : Correlator => (c.index kind).size ≤ maxTrackedKeys) ?_
    (fun c o h => size_observe_le h o) obs
  cases kind <;> exact Nat.zero_le _

/-- For alerts in the order of their times: a signal names its hosts in order and without
repetition, enough of them, and each with an alert for its key no older than the window; the signals
of a key are more than a window apart; and the indexes never hold more keys than the ceiling. -/
theorem signals_wellFormed (window minHosts : ℤ) {obs : List Observation}
    (htimes : obs.Pairwise fun o o' => o.time ≤ o'.time) :
    (∀ pre o post, obs = pre ++ o :: post →
        ∀ s ∈ ((run (next observe) (newCrossHost window minHosts) pre).observe o).2,
          WellFormed window minHosts (pre ++ [o]) o.time s) ∧
      ((signals window minHosts obs).Pairwise fun s s' =>
        s.kind = s'.kind → s.key = s'.key → window < Time.sub s'.firstSeen s.firstSeen) ∧
      ∀ pre, pre <+: obs → ∀ kind,
        ((run (next observe) (newCrossHost window minHosts) pre).index kind).size ≤
          maxTrackedKeys :=
  ⟨fun pre o _ _ _ hs => wellFormed_observe window minHosts pre o hs, (guards_run htimes).2,
    fun pre _ kind => size_index_run_le window minHosts pre kind⟩

/-- Two hosts with the same technique, ten seconds of window. -/
theorem signals_wellFormed_lateral :
    let alert (host : String) (time : Time) : Observation :=
      { record := { hostname := host, techniqueID := "T1021", time } }
    (signals 10000000000 2 [alert "web-01" 1, alert "db-01" 2]).Pairwise fun s s' =>
      s.kind = s'.kind → s.key = s'.key → 10000000000 < Time.sub s'.firstSeen s.firstSeen := by
  intro alert
  have htimes : [alert "web-01" 1, alert "db-01" 2].Pairwise fun o o' => o.time ≤ o'.time := by
    simp [alert, Observation.time]
  exact (signals_wellFormed 10000000000 2 htimes).2.1

end ArgusEdr.CrossHost
