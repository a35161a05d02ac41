import ArgusEdr.Lib.Pool
import ArgusEdr.Lib.Runs
import ArgusEdr.Model.Event

/-!
# The watchdog (`internal/respond/selfprotect.go`)

`Kick` stores the time and then clears the stall flag; `checkAt` loads the time, compares, and then sets
the flag and reports. The time and the flag are two atomics, so calls of the two interleave at these
steps, while time passes. `Watched.advance` are the steps, with a record of the Kicks that completed
and of the reports.
-/

namespace ArgusEdr.Respond

open List

open Model (Time unixEpoch)
open Runs

/-- `time.Unix(0, nsec)`. -/
def unixTime (nsec : ℤ) : Time := unixEpoch + nsec

structure Watchdog where
  timeout : ℤ
  lastKick : ℤ
  stalled : Bool := false

/-- A Kick: the time it stored, and which store it was. -/
structure Heartbeat where
  time : Time
  number : ℕ

/-- A report: when it was made, after which completed Kick, from which store, and the idle time it
tells. -/
structure StallReport where
  clock : Time
  heartbeat : Heartbeat
  loaded : ℕ
  idle : ℤ

inductive Mark where
  | completed (heartbeat : Heartbeat)
  | reported (report : StallReport)

/-- The watchdog and the clock. `stores` are the times stored so far, `heartbeat` is the last completed
Kick, and `log` the completed Kicks and the reports in order. -/
structure Watched where
  watchdog : Watchdog
  clock : Time
  stores : List Time
  heartbeat : Heartbeat
  log : List Mark := []

inductive WatchTask where
  | kick
  /-- in `Kick`, after the store -/
  | stored (heartbeat : Heartbeat)
  | checkAt (now : Time)
  /-- in `checkAt`, after the comparison -/
  | idled (idle : ℤ) (loaded : ℕ)
  | returned

/-- `NewWatchdog`, whose store is the first one. -/
def newWatchdog (timeout : ℤ) (now : Time) : Watched where
  watchdog := { timeout, lastKick := Time.unixNano now }
  clock := now
  stores := [now]
  heartbeat := ⟨now, 0⟩

def Watched.advance (s : Watched) : WatchTask → Watched × WatchTask
  | .kick =>
    ({ s with
       watchdog := { s.watchdog with lastKick := Time.unixNano s.clock }
       stores := s.stores ++ [s.clock] },
     .stored ⟨s.clock, s.stores.length⟩)
  | .stored heartbeat =>
    ({ s with
       watchdog := { s.watchdog with stalled := false }
       heartbeat
       log := s.log ++ [.completed heartbeat] },
     .returned)
  | .checkAt now =>
    let idle := Time.sub now (unixTime s.watchdog.lastKick)
    if idle < s.watchdog.timeout then (s, .returned)
    else (s, .idled idle (s.stores.length - 1))
  | .idled idle loaded =>
    if s.watchdog.stalled then (s, .returned)
    else
      ({ s with
         watchdog := { s.watchdog with stalled := true }
         log := s.log ++ [.reported ⟨s.clock, s.heartbeat, loaded, idle⟩] },
       .returned)
  | .returned => (s, .returned)

structure WatchWorld where
  shared : Watched
  tasks : List WatchTask

/-- Time passes, `Kick` is called, a tick of some time ago reaches `Run`, or a call takes a step. -/
inductive WatchEvent where
  | pass (time : ℕ)
  | kick
  | tick (age : ℕ)
  | advance (n : ℕ)

namespace WatchWorld

def start (timeout : ℤ) (now : Time) : WatchWorld := ⟨newWatchdog timeout now, []⟩

/-- The ticker of `Run` has half the timeout as its interval. With one that is not positive, it panics,
and there is no check. -/
def step (w : WatchWorld) : WatchEvent → WatchWorld
  | .pass time => { w with shared := { w.shared with clock := w.shared.clock + time } }
  | .kick => { w with tasks := w.tasks ++ [.kick] }
  | .tick age =>
    if w.shared.watchdog.timeout.tdiv 2 ≤ 0 then w
    else { w with tasks := w.tasks ++ [.checkAt (w.shared.clock - age)] }
  | .advance n =>
    let next := Pool.advanceAt Watched.advance w.shared w.tasks n
    ⟨next.1, next.2⟩

end WatchWorld

/-! ## Times -/

/-- The times whose nanoseconds fit an `int64`: those of the years 1678 to 2262. -/
def HasUnixNano (t : Time) : Prop := -2 ^ 63 ≤ t - unixEpoch ∧ t - unixEpoch < 2 ^ 63

variable {t : Time} {timeout : ℤ} {s : Watched}

theorem unixTime_unixNano (h : HasUnixNano t) : unixTime (Time.unixNano t) = t := by
  obtain ⟨hlow, hhigh⟩ := h
  have hnano : Time.unixNano t = t - unixEpoch :=
    Int.bmod_eq_of_le (by norm_num; linarith) (by norm_num; linarith)
  rw [unixTime, hnano]
  exact add_sub_cancel unixEpoch t

theorem HasUnixNano.between {u v : Time} (ht : HasUnixNano t) (hv : HasUnixNano v) (htu : t ≤ u)
    (huv : u ≤ v) : HasUnixNano u := by
  unfold HasUnixNano at *
  constructor <;> linarith

theorem le_sub_of_le_timeSub {u : Time} (hpos : 0 < timeout) (h : timeout ≤ Time.sub t u) :
    timeout ≤ t - u := by
  unfold Time.sub at h
  omega

theorem pos_of_half_pos (h : 0 < timeout.tdiv 2) : 0 < timeout := by
  by_contra hneg
  have hhalf : 0 ≤ (-timeout).tdiv 2 := Int.tdiv_nonneg (by omega) (by decide)
  rw [Int.neg_tdiv] at hhalf
  omega

/-! ## What a step keeps -/

/-- Times are stored and time passes. -/
structure Watched.Grows (s s' : Watched) : Prop where
  timeout_eq : s'.watchdog.timeout = s.watchdog.timeout
  stores_initial : s.stores <+: s'.stores
  clock_le : s.clock ≤ s'.clock

/-- What a call knows: the store its Kick has made; that its tick is not from the future; that, when
it loaded the time, at least the timeout had passed since the store it is from. -/
def WatchTask.Known (s : Watched) : WatchTask → Prop
  | .kick | .returned => True
  | .stored heartbeat => s.stores[heartbeat.number]? = some heartbeat.time
  | .checkAt now => now ≤ s.clock ∧ 0 < s.watchdog.timeout
  | .idled _ loaded => ∃ v, s.stores[loaded]? = some v ∧
      (HasUnixNano v → s.watchdog.timeout ≤ s.clock - v)

theorem getElem?_of_initial {α : Type} {xs ys : List α} {n : ℕ} {x : α} (h : xs <+: ys)
    (hx : xs[n]? = some x) : ys[n]? = some x := by
  obtain ⟨hn, rfl⟩ := List.getElem?_eq_some_iff.mp hx
  exact prefix_iff_getElem?.mp h n hn

theorem WatchTask.Known.grow {s' : Watched} {t : WatchTask} (h : t.Known s) (hgrows : s.Grows s') :
    t.Known s' := by
  cases t with
  | kick | returned => trivial
  | stored => exact getElem?_of_initial hgrows.stores_initial h
  | checkAt => exact ⟨h.1.trans hgrows.clock_le, hgrows.timeout_eq ▸ h.2⟩
  | idled =>
    obtain ⟨v, hv, hidle⟩ := h
    refine ⟨v, getElem?_of_initial hgrows.stores_initial hv, fun hnano => ?_⟩
    have hle := hgrows.clock_le
    rw [hgrows.timeout_eq]
    linarith [hidle hnano]

theorem Watched.grows_advance (s : Watched) (t : WatchTask) : s.Grows (s.advance t).1 := by
  have hsame : s.Grows s := ⟨rfl, prefix_refl _, le_refl _⟩
  cases t with
  | kick => exact ⟨rfl, prefix_append _ _, le_refl _⟩
  | stored => exact ⟨rfl, prefix_refl _, le_refl _⟩
  | checkAt =>
    simp only [Watched.advance]
    split_ifs <;> exact hsame
  | idled =>
    simp only [Watched.advance]
    split_ifs
    · exact hsame
    · exact ⟨rfl, prefix_refl _, le_refl _⟩
  | returned => exact hsame

/-- A report is right if the Kick completed last did not store its time after the load. -/
def StallReport.Right (timeout : ℤ) (now : Time) (r : StallReport) : Prop :=
  r.heartbeat.number ≤ r.loaded → HasUnixNano now → HasUnixNano r.clock →
    timeout ≤ r.clock - r.heartbeat.time

structure Watched.Kept (timeout : ℤ) (now : Time) (s : Watched) : Prop where
  timeout_eq : s.watchdog.timeout = timeout
  sorted : s.stores.Pairwise (· ≤ ·)
  between : ∀ v ∈ s.stores, now ≤ v ∧ v ≤ s.clock
  last : ∃ v, s.stores[s.stores.length - 1]? = some v ∧ s.watchdog.lastKick = Time.unixNano v
  heartbeat : s.stores[s.heartbeat.number]? = some s.heartbeat.time
  right : ∀ r, .reported r ∈ s.log → now ≤ r.clock ∧ r.clock ≤ s.clock ∧ r.Right timeout now

section
variable {timeout : ℤ} {now : Time} {s : Watched}

theorem Watched.Kept.now_le (h : s.Kept timeout now) : now ≤ s.clock := by
  obtain ⟨v, hv, -⟩ := h.last
  obtain ⟨hlow, hhigh⟩ := h.between v (mem_of_getElem? hv)
  exact hlow.trans hhigh

theorem Watched.Kept.stores_mono (h : s.Kept timeout now) {m n : ℕ} {u v : Time} (hmn : m ≤ n)
    (hu : s.stores[m]? = some u) (hv : s.stores[n]? = some v) : u ≤ v := by
  rcases hmn.eq_or_lt with rfl | hlt
  · rw [hu] at hv
    exact (Option.some.inj hv).le
  · obtain ⟨hm, rfl⟩ := List.getElem?_eq_some_iff.mp hu
    obtain ⟨hn, rfl⟩ := List.getElem?_eq_some_iff.mp hv
    exact List.pairwise_iff_getElem.mp h.sorted m n hm hn hlt

/-- The store. -/
theorem Watched.Kept.kick (h : s.Kept timeout now) : (s.advance .kick).1.Kept timeout now where
  timeout_eq := h.timeout_eq
  sorted := by
    refine pairwise_append.mpr ⟨h.sorted, pairwise_singleton _ _, ?_⟩
    intro v hv u hu
    rw [mem_singleton.mp hu]
    exact (h.between v hv).2
  between := by
    intro v hv
    rcases mem_append.mp hv with hv | hv
    · exact h.between v hv
    · rw [mem_singleton.mp hv]
      exact ⟨h.now_le, le_refl _⟩
  last := ⟨s.clock, by simp [Watched.advance], rfl⟩
  heartbeat := getElem?_of_initial (prefix_append _ _) h.heartbeat
  right := h.right

theorem Watched.Kept.stored (h : s.Kept timeout now) {heartbeat : Heartbeat}
    (ht : (WatchTask.stored heartbeat).Known s) :
    (s.advance (.stored heartbeat)).1.Kept timeout now where
  timeout_eq := h.timeout_eq
  sorted := h.sorted
  between := h.between
  last := h.last
  heartbeat := ht
  right := by
    intro r hr
    rcases mem_append.mp hr with hr | hr
    · exact h.right r hr
    · cases mem_singleton.mp hr

theorem Watched.Kept.reported (h : s.Kept timeout now) {idle : ℤ} {loaded : ℕ}
    (ht : (WatchTask.idled idle loaded).Known s) :
    (StallReport.mk s.clock s.heartbeat loaded idle).Right timeout now := by
  intro hnumber hnow hclock
  obtain ⟨v, hv, hidle⟩ := ht
  obtain ⟨hlow, hhigh⟩ := h.between v (mem_of_getElem? hv)
  have hpassed := hidle (hnow.between hclock hlow hhigh)
  have hearlier : s.heartbeat.time ≤ v := h.stores_mono hnumber h.heartbeat hv
  rw [← h.timeout_eq]
  linarith

theorem Watched.Kept.advance (h : s.Kept timeout now) {t : WatchTask} (ht : t.Known s) :
    (s.advance t).1.Kept timeout now ∧ (s.advance t).2.Known (s.advance t).1 := by
  cases t with
  | kick => exact ⟨h.kick, by simp [Watched.advance, WatchTask.Known]⟩
  | stored => exact ⟨h.stored ht, trivial⟩
  | checkAt =>
    obtain ⟨v, hv, hlast⟩ := h.last
    simp only [Watched.advance]
    split_ifs with hidle
    · exact ⟨h, trivial⟩
    · refine ⟨h, v, hv, fun hnano => ?_⟩
      rw [hlast, unixTime_unixNano hnano] at hidle
      have hpassed := le_sub_of_le_timeSub ht.2 (not_lt.mp hidle)
      linarith [ht.1]
  | idled =>
    simp only [Watched.advance]
    split_ifs
    · exact ⟨h, trivial⟩
    · refine ⟨⟨h.timeout_eq, h.sorted, h.between, h.last, h.heartbeat, ?_⟩, trivial⟩
      intro r hr
      rcases mem_append.mp hr with hr | hr
      · exact h.right r hr
      · cases mem_singleton.mp hr
        exact ⟨h.now_le, le_refl _, h.reported ht⟩
  | returned => exact ⟨h, trivial⟩

end

/-! ## Reports and Kicks -/

def Mark.IsReport : Mark → Prop
  | .completed _ => False
  | .reported _ => True

/-- No report follows another one directly, and none is the last mark while the flag is clear. -/
structure Watched.Alternating (s : Watched) : Prop where
  chain : s.log.IsChain fun a b => ¬ (a.IsReport ∧ b.IsReport)
  clear : s.watchdog.stalled = false → ∀ m ∈ s.log.getLast?, ¬ m.IsReport

theorem Watched.Alternating.advance (h : s.Alternating) (t : WatchTask) :
    (s.advance t).1.Alternating := by
  cases t with
  | kick => exact ⟨h.chain, h.clear⟩
  | stored =>
    constructor
    · simp only [Watched.advance]
      refine isChain_append.mpr ⟨h.chain, isChain_singleton _, ?_⟩
      simp [Mark.IsReport]
    · simp [Watched.advance, Mark.IsReport]
  | checkAt =>
    simp only [Watched.advance]
    split_ifs <;> exact h
  | idled =>
    simp only [Watched.advance]
    split_ifs with hstalled
    · exact h
    · constructor
      · refine isChain_append.mpr ⟨h.chain, isChain_singleton _, ?_⟩
        intro m hm _ _ hboth
        exact h.clear (Bool.eq_false_iff.mpr hstalled) m hm hboth.1
      · simp
  | returned => exact h

theorem Watched.Alternating.between (h : s.Alternating) {pre mid post : List Mark}
    {r r' : StallReport} (hlog : s.log = pre ++ .reported r :: (mid ++ .reported r' :: post)) :
    ∃ heartbeat, .completed heartbeat ∈ mid := by
  have hchain := h.chain
  rw [hlog, isChain_append] at hchain
  have hafter := hchain.2.1
  cases mid with
  | nil =>
    rw [nil_append, isChain_cons_cons] at hafter
    exact absurd ⟨trivial, trivial⟩ hafter.1
  | cons m ms =>
    rw [cons_append, isChain_cons_cons] at hafter
    cases m with
    | completed heartbeat => exact ⟨heartbeat, mem_cons_self⟩
    | reported => exact absurd ⟨trivial, trivial⟩ hafter.1

/-! ## Over a run -/

namespace WatchWorld

structure Sound (timeout : ℤ) (now : Time) (w : WatchWorld) : Prop where
  kept : w.shared.Kept timeout now
  known : ∀ t ∈ w.tasks, t.Known w.shared
  alternating : w.shared.Alternating

variable {timeout : ℤ} {now : Time}

theorem sound_start : (start timeout now).Sound timeout now where
  kept :=
    { timeout_eq := rfl
      sorted := pairwise_singleton _ _
      between := by simp [start, newWatchdog]
      last := ⟨now, rfl, rfl⟩
      heartbeat := rfl
      right := by simp [start, newWatchdog] }
  known := by simp [start]
  alternating := ⟨isChain_nil, by simp [start, newWatchdog]⟩

theorem Sound.step {w : WatchWorld} (h : w.Sound timeout now) (e : WatchEvent) :
    (w.step e).Sound timeout now := by
  cases e with
  | pass time =>
    have hle : w.shared.clock ≤ w.shared.clock + time := by linarith [Int.natCast_nonneg time]
    refine ⟨?_, ?_, ⟨h.alternating.chain, h.alternating.clear⟩⟩
    · exact
        { timeout_eq := h.kept.timeout_eq
          sorted := h.kept.sorted
          between := fun v hv => ⟨(h.kept.between v hv).1, (h.kept.between v hv).2.trans hle⟩
          last := h.kept.last
          heartbeat := h.kept.heartbeat
          right := fun r hr =>
            have hr := h.kept.right r hr
            ⟨hr.1, hr.2.1.trans hle, hr.2.2⟩ }
    · exact fun t ht => (h.known t ht).grow ⟨rfl, prefix_refl _, hle⟩
  | kick => exact ⟨h.kept, Pool.forall_mem_spawn h.known trivial, h.alternating⟩
  | tick age =>
    unfold WatchWorld.step
    split_ifs with hticker
    · exact h
    · refine ⟨h.kept, Pool.forall_mem_spawn h.known ⟨?_, ?_⟩, h.alternating⟩
      · linarith [Int.natCast_nonneg age]
      · exact pos_of_half_pos (not_le.mp hticker)
  | advance n =>
    obtain ⟨⟨hkept, halternating⟩, hknown⟩ :=
      Pool.advanceAt_interference (n := n) (J := fun s t => t.Known s)
        (I := fun s => s.Kept timeout now ∧ s.Alternating) ⟨h.kept, h.alternating⟩ h.known
        fun t _ ht => ⟨⟨(h.kept.advance ht).1, h.alternating.advance t⟩, (h.kept.advance ht).2,
          fun u hu => hu.grow (w.shared.grows_advance t)⟩
    exact ⟨hkept, hknown, halternating⟩

end WatchWorld

/-- In every run of a watchdog started at `now`, a Kick completes between two reports. While the clock
stays in the range of `UnixNano`, a report is made at least the timeout after the time of the Kick that
completed last, unless this Kick stored it after the check had loaded the time. -/
theorem watchdog_reports (timeout : ℤ) (now : Time) (es : List WatchEvent) :
    let s := (run WatchWorld.step (.start timeout now) es).shared
    (∀ pre mid post r r', s.log = pre ++ .reported r :: (mid ++ .reported r' :: post) →
      ∃ heartbeat, .completed heartbeat ∈ mid) ∧
    (HasUnixNano now → HasUnixNano s.clock → ∀ r, .reported r ∈ s.log →
      r.heartbeat.number ≤ r.loaded → timeout ≤ r.clock - r.heartbeat.time) := by
  intro s
  have hsound : (run WatchWorld.step (.start timeout now) es).Sound timeout now :=
    run_invariant WatchWorld.sound_start (fun _ e h => h.step e) es
  constructor
  · intro pre mid post r r' hlog
    exact hsound.alternating.between hlog
  · intro hnow hclock r hr hnumber
    obtain ⟨hlow, hhigh, hright⟩ := hsound.kept.right r hr
    exact hright hnumber hnow (hnow.between hclock hlow hhigh)

/-- A check of ten seconds loads the time; before it sets the flag, a Kick stores the time and clears
the flag. The stall it reports is over: no time has passed since the Kick. -/
theorem watchdog_reports_overtaken :
    let now := unixEpoch
    let s := (run WatchWorld.step (.start 10000000000 now) [.pass 10000000000, .tick 0, .kick, .advance 0,
      .advance 1, .advance 1, .advance 0]).shared
    s.log.length = 2 ∧
      ∃ r, s.log[1]? = some (.reported r) ∧ r.clock - r.heartbeat.time = 0 := by
  refine ⟨by decide, _, rfl, by decide⟩

end ArgusEdr.Respond
