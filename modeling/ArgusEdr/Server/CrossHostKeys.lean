import ArgusEdr.Server.CrossHostTheorems

/-!
# The keys of the cross-host correlator, one by one

As long as an index has room, the window of a key is touched by alerts for other keys only in that these
may sweep it, each with its own time. `soloStep` is the correlator of one key, which is never swept. It
answers the same (`signalsFor_eq`) if no alert for the key is older than an alert before it, for then a
host is swept only when the next alert for the key would drop it.
-/

namespace ArgusEdr.CrossHost

open Model
open List hiding next
open Simulation (next answers trace)
open Runs (run AllSteps)

variable {window minHosts : ℤ} {kind : Kind} {key : String}

def soloStep (window minHosts : ℤ) (kind : Kind) (key : String) (s : Option HostWindow)
    (o : Observation) : Option HostWindow × Option Signal :=
  (some ((current window o.time s).hit window minHosts kind key o.record.hostname o.time).1,
    ((current window o.time s).hit window minHosts kind key o.record.hostname o.time).2)

/-! ## Swept windows -/

/-- Of the second table, only hosts that have run out at the time `t` are missing in the first. -/
def Fades (window : ℤ) (t : Time) (hosts' hosts : Hosts) : Prop :=
  ∀ host : String, hosts'[host]? = hosts[host]? ∨
    hosts'[host]? = none ∧ ∃ seen, hosts[host]? = some seen ∧ window < Time.sub t seen

/-- From the time `t` on, the window that is kept is as good as the one that is never swept. -/
def Tracks (window : ℤ) (t : Time) : Option HostWindow → Option HostWindow → Prop
  | none, none => True
  | none, some w => window < Time.sub t w.first ∧ Sound window t w
  | some _, none => False
  | some w', some w =>
    w'.first = w.first ∧ w'.fired = w.fired ∧ Fades window t w'.hosts w.hosts ∧ Sound window t w

variable {t t' now : Time} {hosts' hosts : Hosts} {a s : Option HostWindow} {w : HostWindow}
  {keys : Finset String} {obs : List Observation}

theorem Fades.mono (h : Fades window t hosts' hosts) (ht : t ≤ t') :
    Fades window t' hosts' hosts := by
  intro host
  refine (h host).imp_right fun hgone => ?_
  obtain ⟨hnone, seen, hseen, hout⟩ := hgone
  exact ⟨hnone, seen, hseen, hout.trans_le (Time.sub_le_sub ht le_rfl)⟩

theorem Fades.prune (h : Fades window t hosts' hosts) (ht : now ≤ t) :
    Fades window t (pruneExpired hosts' now window) hosts := by
  intro host
  cases h host with
  | inr hgone => exact .inr ⟨by rw [getElem?_pruneExpired, hgone.1]; rfl, hgone.2⟩
  | inl heq =>
    rw [getElem?_pruneExpired, heq]
    cases hseen : hosts[host]? with
    | none => exact .inl rfl
    | some seen =>
      by_cases hout : window < Time.sub now seen
      · refine .inr ⟨by simp [Option.filter, hout], seen, rfl, ?_⟩
        exact hout.trans_le (Time.sub_le_sub ht le_rfl)
      · exact .inl (by simp [Option.filter, hout])

theorem Fades.prune_insert (h : Fades window t hosts' hosts) (ht : t ≤ now) (host : String) :
    pruneExpired (hosts'.insert host now) now window =
      pruneExpired (hosts.insert host now) now window := by
  apply Std.ExtTreeMap.ext_getElem?
  intro other
  rw [getElem?_pruneExpired, getElem?_pruneExpired, Std.ExtTreeMap.getElem?_insert,
    Std.ExtTreeMap.getElem?_insert]
  split
  · rfl
  · cases h other with
    | inl heq => rw [heq]
    | inr hgone =>
      obtain ⟨hnone, seen, hseen, hout⟩ := hgone
      have hout' : window < Time.sub now seen := hout.trans_le (Time.sub_le_sub ht le_rfl)
      rw [hnone, hseen]
      simp [Option.filter, hout']

theorem Tracks.mono (h : Tracks window t a s) (ht : t ≤ t') : Tracks window t' a s := by
  match a, s with
  | none, none => trivial
  | none, some w => exact ⟨h.1.trans_le (Time.sub_le_sub ht le_rfl), h.2.mono ht⟩
  | some w', some w =>
    obtain ⟨hfirst, hfired, hhosts, hsound⟩ := h
    exact ⟨hfirst, hfired, hhosts.mono ht, hsound.mono ht⟩

theorem Tracks.sound (h : Tracks window t a (some w)) : Sound window t w := by
  match a with
  | none => exact h.2
  | some w' => exact h.2.2.2

theorem Tracks.swept (h : Tracks window t a s) (ht : now ≤ t) :
    Tracks window t (swept window now a) s := by
  match a, s with
  | none, none => trivial
  | none, some w => exact h
  | some w', some w =>
    obtain ⟨hfirst, hfired, hhosts, hsound⟩ := h
    have hpruned := hhosts.prune ht
    rw [CrossHost.swept]
    split
    · next hempty =>
      refine ⟨?_, hsound⟩
      -- every host that is not swept would still be there
      have hout : ∀ (host : String) seen, w.hosts[host]? = some seen → window < Time.sub t seen := by
        intro host seen hseen
        cases hpruned host with
        | inl heq =>
          rw [Std.ExtTreeMap.isEmpty_iff.mp hempty, hseen] at heq
          exact absurd heq (by simp)
        | inr hgone =>
          obtain ⟨-, seen', hseen', hout⟩ := hgone
          rw [hseen] at hseen'
          rwa [Option.some.inj hseen']
      by_cases hwindow : 0 ≤ window
      · obtain ⟨host, seen, hseen⟩ := hsound.exists_host hwindow
        exact (hout host seen hseen).trans_le
          (Time.sub_le_sub le_rfl (hsound.first_le_seen host seen hseen))
      · exact (not_le.mp hwindow).trans_le (Time.sub_nonneg hsound.first_le)
    · exact ⟨hfirst, hfired, hpruned, hsound⟩

theorem Tracks.aged {b : Option HostWindow} (h : Tracks window t a s) (hab : Aged window now a b) :
    Tracks window (max t now) b s := by
  have hmax := h.mono (le_max_left t now)
  cases hab with
  | inl hab => exact hab ▸ hmax
  | inr hab => exact hab ▸ hmax.swept (le_max_right t now)

theorem Tracks.hit_eq (h : Tracks window now a s) (host : String) :
    (current window now a).hit window minHosts kind key host now =
      (current window now s).hit window minHosts kind key host now := by
  match a, s with
  | none, none => rfl
  | none, some w => rw [current, current, if_pos h.1]
  | some w', some w =>
    obtain ⟨hfirst, hfired, hhosts, -⟩ := h
    rw [current, current, hfirst]
    split
    · rfl
    · unfold HostWindow.hit
      rw [hhosts.prune_insert le_rfl host, hfired, hfirst]

theorem Tracks.refl (h : Sound window t w) : Tracks window t (some w) (some w) :=
  ⟨rfl, rfl, fun _ => .inl rfl, h⟩

/-! ## One key among others -/

/-- The part of the correlator that concerns a key, against the correlator of that key. The keys of
its index are among `keys`. -/
structure Follows (window minHosts : ℤ) (kind : Kind) (key : String) (keys : Finset String)
    (t : Time) (c : Correlator) (s : Option HostWindow) : Prop where
  window_eq : c.window = window
  minHosts_eq : c.minHosts = minHosts
  tracks : Tracks window t (c.index kind)[key]? s
  mem_keys : ∀ k ∈ c.index kind, k ∈ keys

def KeyIn (kind : Kind) (keys : Finset String) (o : Observation) : Prop :=
  kind.key o.record ≠ "" → kind.key o.record ∈ keys

theorem size_le_card {index : Index} (h : ∀ k ∈ index, k ∈ keys) : index.size ≤ keys.card := by
  have hnodup : index.keys.Nodup :=
    Std.ExtTreeMap.ordered_keys.imp fun hlt => (compare_lt_iff_lt.mp hlt).ne
  rw [← Std.ExtTreeMap.length_keys, ← toFinset_card_of_nodup hnodup]
  apply Finset.card_le_card
  intro k hk
  exact h k (Std.ExtTreeMap.mem_keys.mp (mem_toFinset.mp hk))

theorem mem_keys_observe {c : Correlator} (h : ∀ k ∈ c.index kind, k ∈ keys) {o : Observation}
    (ho : KeyIn kind keys o) : ∀ k ∈ (c.observe o).1.index kind, k ∈ keys := by
  intro k hk
  obtain ⟨b, haged, hentry⟩ := entry_observe c o kind k
  cases hentry with
  | inl hentry =>
    obtain ⟨hne, rfl⟩ := of_decide_eq_true hentry.1
    exact ho hne
  | inr hentry =>
    rw [Std.ExtTreeMap.mem_iff_isSome_getElem?, hentry.1] at hk
    obtain ⟨w, rfl⟩ := Option.isSome_iff_exists.mp hk
    obtain ⟨w', hw', -⟩ := getElem?_hosts_of_aged haged
    apply h
    rw [Std.ExtTreeMap.mem_iff_isSome_getElem?, hw']
    rfl

section
variable {keys : Finset String} {t : Time} {c : Correlator} {s : Option HostWindow}
  {o : Observation}

theorem Follows.hit (hroom : keys.card < maxTrackedKeys)
    (h : Follows window minHosts kind key keys t c s) (ho : KeyIn kind keys o) (ht : t ≤ o.time)
    (htouches : touches kind key o = true) :
    Follows window minHosts kind key keys (max t o.time) (next Correlator.observe c o)
        (next (soloStep window minHosts kind key) s o) ∧
      signalOf kind (c.observe o).2 = (soloStep window minHosts kind key s o).2 := by
  obtain ⟨rfl, rfl, htracks, hkeys⟩ := h
  have hkeys' := mem_keys_observe hkeys ho
  obtain ⟨hwindow, hminHosts⟩ := observe_window c o
  obtain ⟨b, haged, hentry⟩ := entry_observe c o kind key
  have hb := htracks.aged haged
  rw [max_eq_right ht] at hb ⊢
  cases hentry with
  | inr hentry =>
    -- there is room for every key
    have hfull := (hentry.2 htouches).2.2
    have hsize := size_le_card hkeys'
    omega
  | inl hentry =>
    obtain ⟨-, hentry, hsignal⟩ := hentry
    rw [hb.hit_eq] at hentry hsignal
    refine ⟨⟨hwindow, hminHosts, ?_, hkeys'⟩, hsignal⟩
    rw [next, hentry]
    refine Tracks.refl (sound_hit (fun w hw => ?_) le_rfl kind key o.record.hostname)
    exact (hw ▸ hb).sound

theorem Follows.miss (h : Follows window minHosts kind key keys t c s) (ho : KeyIn kind keys o)
    (htouches : touches kind key o = false) :
    Follows window minHosts kind key keys (max t o.time) (next Correlator.observe c o) s := by
  obtain ⟨rfl, rfl, htracks, hkeys⟩ := h
  obtain ⟨hwindow, hminHosts⟩ := observe_window c o
  obtain ⟨b, haged, hentry⟩ := entry_observe c o kind key
  refine ⟨hwindow, hminHosts, ?_, mem_keys_observe hkeys ho⟩
  cases hentry with
  | inl hentry =>
    rw [hentry.1] at htouches
    exact absurd htouches (by simp)
  | inr hentry =>
    rw [next, hentry.1]
    exact htracks.aged haged

end

def keysOf (kind : Kind) (obs : List Observation) : Finset String :=
  (obs.map fun o => kind.key o.record).toFinset.erase ""

/-- No alert for the key is older than an alert before it. -/
def InOrderFor (kind : Kind) (key : String) (obs : List Observation) : Prop :=
  obs.Pairwise fun o o' => touches kind key o' = true → o.time ≤ o'.time

theorem InOrderFor.of_pairwise (h : obs.Pairwise fun o o' => o.time ≤ o'.time) :
    InOrderFor kind key obs := by
  refine List.Pairwise.imp ?_ h
  intro o o' hle _
  exact hle

theorem trace_key (hroom : (keysOf kind obs).card < maxTrackedKeys)
    (horder : InOrderFor kind key obs) :
    ((trace Correlator.observe (newCrossHost window minHosts) obs).filter
        fun p => touches kind key p.1).map (fun p => (p.1, signalOf kind p.2)) =
      trace (soloStep window minHosts kind key) none (obs.filter (touches kind key)) := by
  obtain ⟨t, hsteps⟩ := AllSteps.exists_of_pairwise horder
  have hkeys : ∀ o ∈ obs, KeyIn kind (keysOf kind obs) o := by
    intro o ho hne
    exact Finset.mem_erase.mpr ⟨hne, mem_toFinset.mpr (mem_map_of_mem ho)⟩
  have h0 : Follows window minHosts kind key (keysOf kind obs) t (newCrossHost window minHosts)
      none := by
    refine ⟨rfl, rfl, ?_, ?_⟩
    · cases kind <;> exact trivial
    · cases kind <;> exact fun k hk => absurd hk Std.ExtTreeMap.not_mem_empty
  exact Simulation.trace_filter (R := Follows window minHosts kind key (keysOf kind obs))
    (fun _ _ _ _ h hp ho => h.hit hroom hp.2 (hp.1 ho) ho)
    (fun _ _ _ _ h hp ho => h.miss hp.2 ho) h0 (hsteps.and_forall hkeys)

/-! ## The signals of a key -/

def signalsFor (kind : Kind) (key : String) (signals : List Signal) : List Signal :=
  signals.filter fun s => s.kind = kind ∧ s.key = key

theorem signalsFor_trackKind (c : Correlator) (o : Observation) (kind' : Kind) :
    signalsFor kind key (c.trackKind o kind').2.toList =
      if kind' = kind ∧ touches kind key o = true then (c.trackKind o kind').2.toList else [] := by
  cases hsignal : (c.trackKind o kind').2 with
  | none => simp [signalsFor]
  | some s =>
    obtain ⟨hkind, htouches⟩ := trackKind_signal hsignal
    have hiff : (s.kind = kind ∧ s.key = key) ↔ (kind' = kind ∧ touches kind key o = true) := by
      constructor
      · rintro ⟨rfl, rfl⟩
        exact ⟨hkind.symm, hkind ▸ htouches⟩
      · rintro ⟨rfl, hkey⟩
        exact ⟨hkind, (of_decide_eq_true htouches).2.symm.trans (of_decide_eq_true hkey).2⟩
    simp [signalsFor, hiff, filter_cons]

theorem signalsFor_observe (c : Correlator) (o : Observation) :
    signalsFor kind key (c.observe o).2 =
      if touches kind key o then (signalOf kind (c.observe o).2).toList else [] := by
  have hsplit : signalsFor kind key (c.observe o).2 =
      signalsFor kind key ((c.sweepExpired o.time).trackKind o .lateralMovement).2.toList ++
        signalsFor kind key ((c.sweepExpired o.time).trackKind o .c2FanIn).2.toList := by
    rw [observe_snd]
    exact filter_append _ _
  rw [hsplit, signalsFor_trackKind, signalsFor_trackKind, signalOf_observe]
  cases kind <;> simp

theorem flatMap_ite_nil {α β : Type*} (l : List α) (q : α → Bool) (f : α → List β) :
    (l.flatMap fun a => if q a then f a else []) = (l.filter q).flatMap f := by
  induction l with
  | nil => rfl
  | cons a l ih =>
    rw [flatMap_cons, ih, filter_cons]
    split <;> rfl

theorem signalsFor_eq (hroom : (keysOf kind obs).card < maxTrackedKeys)
    (horder : InOrderFor kind key obs) :
    signalsFor kind key (signals window minHosts obs) =
      (answers (soloStep window minHosts kind key) none
        (obs.filter (touches kind key))).flatMap Option.toList := by
  let tr := trace Correlator.observe (newCrossHost window minHosts) obs
  have hanswer : ∀ p ∈ tr, signalsFor kind key p.2 =
      if touches kind key p.1 then (signalOf kind p.2).toList else [] := by
    intro p hp
    obtain ⟨pre, post, hsplit⟩ := append_of_mem hp
    obtain ⟨obs₁, -, -, -, hanswer⟩ := Simulation.trace_eq_split hsplit
    rw [hanswer, signalsFor_observe]
  calc signalsFor kind key (signals window minHosts obs)
      = tr.flatMap fun p => signalsFor kind key p.2 := by
        rw [signals, ← Simulation.map_snd_trace, signalsFor, filter_flatten, map_map]
        rfl
    _ = tr.flatMap fun p => if touches kind key p.1 then (signalOf kind p.2).toList else [] :=
        flatMap_congr hanswer
    _ = (tr.filter fun p => touches kind key p.1).flatMap fun p => (signalOf kind p.2).toList :=
        flatMap_ite_nil tr _ _
    _ = (trace (soloStep window minHosts kind key) none (obs.filter (touches kind key))).flatMap
          fun p => p.2.toList := by
        rw [← trace_key hroom horder, flatMap_map]
    _ = (answers (soloStep window minHosts kind key) none
          (obs.filter (touches kind key))).flatMap Option.toList := by
        rw [← Simulation.map_snd_trace, flatMap_map]

/-- Alerts for other keys can be left out: if no alert for the key is older than an alert before it,
the signals of the key are those of any selection of the alerts that keeps the ones for the key. -/
theorem signals_of_key_alone (window minHosts : ℤ) {obs : List Observation}
    (hroom : (keysOf kind obs).card < maxTrackedKeys) (horder : InOrderFor kind key obs)
    {keep : Observation → Bool} (hkeep : ∀ o ∈ obs, touches kind key o = true → keep o = true) :
    signalsFor kind key (signals window minHosts obs) =
      signalsFor kind key (signals window minHosts (obs.filter keep)) := by
  have hsub : (keysOf kind (obs.filter keep)).card < maxTrackedKeys := by
    refine (Finset.card_le_card ?_).trans_lt hroom
    refine Finset.erase_subset_erase _ fun k hk => ?_
    rw [mem_toFinset] at hk ⊢
    exact (filter_sublist.map _).subset hk
  have hfilter : (obs.filter keep).filter (touches kind key) = obs.filter (touches kind key) := by
    rw [filter_filter]
    refine filter_congr fun o ho => ?_
    cases htouches : touches kind key o with
    | false => rfl
    | true => rw [hkeep o ho htouches]; rfl
  rw [signalsFor_eq hroom horder, signalsFor_eq hsub (horder.sublist filter_sublist), hfilter]

/-- Three alerts in the order of their times. -/
theorem signals_of_key_alone_in_order :
    let alert (host technique : String) (time : Time) : Observation :=
      { record := { hostname := host, techniqueID := technique, time } }
    let obs := [alert "web-01" "T1021" 1, alert "mail-01" "T1566" 2, alert "db-01" "T1021" 3]
    signalsFor .lateralMovement "T1021" (signals 10 2 obs) =
      signalsFor .lateralMovement "T1021"
        (signals 10 2 (obs.filter (touches .lateralMovement "T1021"))) := by
  intro alert obs
  have horder : InOrderFor .lateralMovement "T1021" obs := by
    simp [InOrderFor, obs, alert, Observation.time]
  exact signals_of_key_alone 10 2 (by decide +kernel) horder fun o _ htouches => htouches

/-- Two hosts with the same technique, and between them an alert of another key whose clock is ahead:
without that alert there is a signal, with it there is none. -/
theorem clock_ahead_hides_signal :
    let alert (host technique : String) (time : Time) : Observation :=
      { record := { hostname := host, techniqueID := technique, time } }
    let obs := [alert "web-01" "T1021" 1, alert "mail-01" "T1566" 1000, alert "db-01" "T1021" 2]
    signalsFor .lateralMovement "T1021" (signals 10 2 obs) = [] ∧
      (signalsFor .lateralMovement "T1021"
        (signals 10 2 (obs.filter (touches .lateralMovement "T1021")))).map Signal.hosts =
          [["db-01", "web-01"]] := by
  decide +kernel

end ArgusEdr.CrossHost
