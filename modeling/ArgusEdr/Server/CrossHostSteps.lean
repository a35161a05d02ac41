import ArgusEdr.Server.CrossHost

/-!
# What one alert does to the cross-host correlator

The two indexes are many windows, one for each key, that share nothing but the sweeps and the
ceiling. `entry_observe` says what an alert does to the window of one key: it may have been swept
before; then, if the alert is for that key, the alert is added to it, unless the key is new and there
is no room for it. Everything else about the correlator is derived from this.
-/

namespace ArgusEdr.CrossHost

open Model List

variable {window minHosts : ℤ}

/-! ## Windows -/

theorem getElem?_pruneExpired (hosts : Hosts) (now : Time) (host : String) :
    (pruneExpired hosts now window)[host]? =
      hosts[host]?.filter fun seen => !decide (window < Time.sub now seen) := by
  rw [pruneExpired, Std.ExtTreeMap.getElem?_filter, Option.pfilter_eq_filter]

variable {now : Time} {host : String} {kind : Kind} {s : Signal} {c : Correlator} {o : Observation}

theorem getElem?_pruneExpired_eq_some {hosts : Hosts} {seen : Time} :
    (pruneExpired hosts now window)[host]? = some seen ↔
      hosts[host]? = some seen ∧ Time.sub now seen ≤ window := by
  rw [getElem?_pruneExpired, Option.filter_eq_some_iff]
  simp

def swept (window : ℤ) (now : Time) : Option HostWindow → Option HostWindow
  | none => none
  | some w =>
    let hosts := pruneExpired w.hosts now window
    if hosts.isEmpty then none else some { w with hosts }

theorem getElem?_sweep (index : Index) (now : Time) (key : String) :
    (sweep window index now)[key]? = swept window now index[key]? := by
  rw [sweep, Std.ExtTreeMap.getElem?_filterMap]
  cases index[key]? <;> rfl

theorem pruneExpired_idem (hosts : Hosts) (now : Time) :
    pruneExpired (pruneExpired hosts now window) now window = pruneExpired hosts now window := by
  apply Std.ExtTreeMap.ext_getElem?
  intro host
  rw [getElem?_pruneExpired, getElem?_pruneExpired, Option.filter_filter]
  simp

theorem swept_idem (now : Time) (a : Option HostWindow) :
    swept window now (swept window now a) = swept window now a := by
  cases a with
  | none => rfl
  | some =>
    rw [swept]
    split
    · rfl
    · next hne => rw [swept, pruneExpired_idem, if_neg hne]

/-- What is left of a window `a` at a time: all of it, or what a sweep leaves. -/
def Aged (window : ℤ) (now : Time) (a b : Option HostWindow) : Prop :=
  b = a ∨ b = swept window now a

theorem Aged.trans {a b d : Option HostWindow} (hab : Aged window now a b)
    (hbd : Aged window now b d) : Aged window now a d := by
  cases hab with
  | inl hab => exact hab ▸ hbd
  | inr hab =>
    cases hbd with
    | inl hbd => exact .inr (hbd.trans hab)
    | inr hbd => exact .inr (by rw [hbd, hab, swept_idem])

def current (window : ℤ) (now : Time) : Option HostWindow → HostWindow
  | none => { first := now }
  | some w => if window < Time.sub now w.first then { first := now } else w

/-! ## `track` -/

theorem track_cases (window minHosts : ℤ) (index : Index) (key host : String) (now : Time)
    (kind : Kind) :
    ∃ base, (base = index ∨ base = sweep window index now) ∧
      ((index[key]? = none ∧ maxTrackedKeys ≤ base.size ∧
          track window minHosts index key host now kind = (base, none)) ∨
        ((key ∈ base ∨ base.size < maxTrackedKeys) ∧
          track window minHosts index key host now kind =
            hitIn window minHosts kind key host now base (current window now index[key]?))) := by
  cases hkey : index[key]? with
  | none =>
    have htrack : track window minHosts index key host now kind =
        if maxTrackedKeys ≤ index.size then
          if maxTrackedKeys ≤ (sweep window index now).size then (sweep window index now, none)
          else hitIn window minHosts kind key host now (sweep window index now) { first := now }
        else hitIn window minHosts kind key host now index { first := now } := by
      rw [track, hkey]
    rw [htrack]
    by_cases hfull : maxTrackedKeys ≤ index.size
    · rw [if_pos hfull]
      refine ⟨sweep window index now, .inr rfl, ?_⟩
      by_cases hstill : maxTrackedKeys ≤ (sweep window index now).size
      · rw [if_pos hstill]
        exact .inl ⟨rfl, hstill, rfl⟩
      · rw [if_neg hstill]
        exact .inr ⟨.inr (not_le.mp hstill), rfl⟩
    · rw [if_neg hfull]
      exact ⟨index, .inl rfl, .inr ⟨.inr (not_le.mp hfull), rfl⟩⟩
  | some w =>
    have hmem : key ∈ index := by
      rw [Std.ExtTreeMap.mem_iff_isSome_getElem?, hkey]
      rfl
    have htrack : track window minHosts index key host now kind =
        hitIn window minHosts kind key host now index (current window now (some w)) := by
      rw [track, hkey, current]
      dsimp only
      split <;> rfl
    exact ⟨index, .inl rfl, .inr ⟨.inl hmem, htrack⟩⟩

theorem size_track_le {index : Index} (h : index.size ≤ maxTrackedKeys) (key host : String)
    (now : Time) (kind : Kind) :
    (track window minHosts index key host now kind).1.size ≤ maxTrackedKeys := by
  obtain ⟨base, hbase, htrack⟩ := track_cases window minHosts index key host now kind
  have hsize : base.size ≤ maxTrackedKeys := by
    cases hbase with
    | inl hbase => rwa [hbase]
    | inr hbase => exact hbase ▸ Std.ExtTreeMap.size_filterMap_le_size.trans h
  cases htrack with
  | inl htrack => rwa [htrack.2.2]
  | inr htrack =>
    rw [htrack.2, hitIn, Std.ExtTreeMap.size_insert]
    split
    · exact hsize
    · next hnew =>
      have hroom := htrack.1.resolve_left fun hmem => hnew (Std.ExtTreeMap.contains_iff_mem.mpr hmem)
      omega

/-! ## `Observe` -/

def touches (kind : Kind) (key : String) (o : Observation) : Bool :=
  decide (kind.key o.record ≠ "" ∧ kind.key o.record = key)

/-- The signal of a kind among those an alert is answered. -/
def signalOf (kind : Kind) (signals : List Signal) : Option Signal :=
  signals.find? fun s => s.kind = kind

theorem hit_signal {w : HostWindow} {key : String}
    (h : (w.hit window minHosts kind key host now).2 = some s) : s.kind = kind ∧ s.key = key := by
  unfold HostWindow.hit at h
  dsimp only at h
  split at h
  · exact absurd h (by simp)
  · obtain rfl := Option.some.inj h
    exact ⟨rfl, rfl⟩

theorem trackKind_signal (h : (c.trackKind o kind).2 = some s) :
    s.kind = kind ∧ touches kind s.key o = true := by
  unfold Correlator.trackKind at h
  split at h
  · exact absurd h (by simp)
  · next hne =>
    obtain ⟨base, -, htrack⟩ := track_cases c.window c.minHosts (c.index kind) (kind.key o.record)
      o.record.hostname o.time kind
    cases htrack with
    | inl htrack => rw [htrack.2.2] at h; exact absurd h (by simp)
    | inr htrack =>
      rw [htrack.2] at h
      obtain ⟨hkind, hkey⟩ := hit_signal h
      exact ⟨hkind, decide_eq_true ⟨hne, hkey.symm⟩⟩

theorem observe_snd (c : Correlator) (o : Observation) :
    (c.observe o).2 = ((c.sweepExpired o.time).trackKind o .lateralMovement).2.toList ++
      ((c.sweepExpired o.time).trackKind o .c2FanIn).2.toList := rfl

theorem observe_index (c : Correlator) (o : Observation) (kind : Kind) :
    (c.observe o).1.index kind = ((c.sweepExpired o.time).trackKind o kind).1 := by
  cases kind <;> rfl

theorem mem_observe :
    s ∈ (c.observe o).2 ↔ ((c.sweepExpired o.time).trackKind o s.kind).2 = some s := by
  rw [observe_snd, mem_append, Option.mem_toList, Option.mem_toList]
  constructor
  · intro h
    cases h with
    | inl h | inr h => rwa [(trackKind_signal h).1]
  · intro h
    cases hkind : s.kind with
    | lateralMovement => exact .inl (hkind ▸ h)
    | c2FanIn => exact .inr (hkind ▸ h)

theorem signalOf_observe (c : Correlator) (o : Observation) (kind : Kind) :
    signalOf kind (c.observe o).2 = ((c.sweepExpired o.time).trackKind o kind).2 := by
  cases hsignal : ((c.sweepExpired o.time).trackKind o kind).2 with
  | none =>
    rw [signalOf, find?_eq_none]
    intro s hs hkind
    rw [mem_observe, of_decide_eq_true hkind, hsignal] at hs
    exact absurd hs (by simp)
  | some s =>
    have hmem : s ∈ (c.observe o).2 := by
      rw [mem_observe, (trackKind_signal hsignal).1, hsignal]
    cases hfound : signalOf kind (c.observe o).2 with
    | none =>
      exact absurd (decide_eq_true (trackKind_signal hsignal).1)
        (find?_eq_none.mp hfound s hmem)
    | some s' =>
      have hs' := mem_observe.mp (mem_of_find?_eq_some hfound)
      have hkind : s'.kind = kind := by simpa using find?_some hfound
      rw [hkind, hsignal] at hs'
      rw [Option.some.inj hs']

theorem sweepExpired_window (c : Correlator) (now : Time) :
    (c.sweepExpired now).window = c.window ∧ (c.sweepExpired now).minHosts = c.minHosts := by
  unfold Correlator.sweepExpired
  split <;> exact ⟨rfl, rfl⟩

theorem observe_window (c : Correlator) (o : Observation) :
    (c.observe o).1.window = c.window ∧ (c.observe o).1.minHosts = c.minHosts :=
  sweepExpired_window c o.time

theorem sweepExpired_index (c : Correlator) (now : Time) (kind : Kind) :
    (c.sweepExpired now).index kind = c.index kind ∨
      (c.sweepExpired now).index kind = sweep c.window (c.index kind) now := by
  unfold Correlator.sweepExpired
  split
  · exact .inl rfl
  · cases kind <;> exact .inr rfl

theorem size_observe_le (h : (c.index kind).size ≤ maxTrackedKeys) (o : Observation) :
    ((c.observe o).1.index kind).size ≤ maxTrackedKeys := by
  have hsize : ((c.sweepExpired o.time).index kind).size ≤ maxTrackedKeys := by
    cases sweepExpired_index c o.time kind with
    | inl hindex => rwa [hindex]
    | inr hindex => exact hindex ▸ Std.ExtTreeMap.size_filterMap_le_size.trans h
  rw [observe_index, Correlator.trackKind]
  split
  · exact hsize
  · exact size_track_le hsize _ _ _ _

theorem entry_observe (c : Correlator) (o : Observation) (kind : Kind) (key : String) :
    ∃ b, Aged c.window o.time (c.index kind)[key]? b ∧
      ((touches kind key o = true ∧
          ((c.observe o).1.index kind)[key]? = some ((current c.window o.time b).hit c.window
            c.minHosts kind key o.record.hostname o.time).1 ∧
          signalOf kind (c.observe o).2 = ((current c.window o.time b).hit c.window c.minHosts kind
            key o.record.hostname o.time).2) ∨
        (((c.observe o).1.index kind)[key]? = b ∧
          (touches kind key o = true → b = none ∧ signalOf kind (c.observe o).2 = none ∧
            maxTrackedKeys ≤ ((c.observe o).1.index kind).size))) := by
  obtain ⟨hwindow, hminHosts⟩ := sweepExpired_window c o.time
  have haged : Aged c.window o.time (c.index kind)[key]?
      ((c.sweepExpired o.time).index kind)[key]? := by
    cases sweepExpired_index c o.time kind with
    | inl hindex => exact .inl (by rw [hindex])
    | inr hindex => exact .inr (by rw [hindex, getElem?_sweep])
  rw [observe_index, signalOf_observe, Correlator.trackKind, hwindow, hminHosts]
  by_cases hempty : kind.key o.record = ""
  · rw [if_pos hempty]
    refine ⟨_, haged, .inr ⟨rfl, fun htouches => ?_⟩⟩
    exact absurd hempty (of_decide_eq_true htouches).1
  · rw [if_neg hempty]
    obtain ⟨base, hbase, htrack⟩ := track_cases c.window c.minHosts ((c.sweepExpired o.time).index kind)
      (kind.key o.record) o.record.hostname o.time kind
    have hbaseAged : Aged c.window o.time (c.index kind)[key]? base[key]? := by
      cases hbase with
      | inl hbase => exact hbase ▸ haged
      | inr hbase => exact haged.trans (.inr (by rw [hbase, getElem?_sweep]))
    by_cases hkey : kind.key o.record = key
    · subst hkey
      cases htrack with
      | inl htrack =>
        obtain ⟨hnone, hfull, htrack⟩ := htrack
        rw [htrack]
        refine ⟨_, hbaseAged, .inr ⟨rfl, fun _ => ⟨?_, rfl, hfull⟩⟩⟩
        cases hbase with
        | inl hbase => rw [hbase, hnone]
        | inr hbase => rw [hbase, getElem?_sweep, hnone]; rfl
      | inr htrack =>
        rw [htrack.2, hitIn]
        refine ⟨_, haged, .inl ⟨decide_eq_true ⟨hempty, rfl⟩, ?_, rfl⟩⟩
        exact Std.ExtTreeMap.getElem?_insert_self
    · refine ⟨_, hbaseAged, .inr ⟨?_, fun htouches => absurd (of_decide_eq_true htouches).2 hkey⟩⟩
      cases htrack with
      | inl htrack => rw [htrack.2.2]
      | inr htrack =>
        rw [htrack.2, hitIn, Std.ExtTreeMap.getElem?_insert,
          if_neg fun heq => hkey (compare_eq_iff_eq.mp heq)]

end ArgusEdr.CrossHost
