import ArgusEdr.Decode.WireTheorems
import ArgusEdr.Enrich.Enricher
import ArgusEdr.Go.Strconv

/-!
# The keys of a process

Events of other processes leave the entry of a process in the tree alone, so its events are stamped as
by a machine that knows this process only (`starts_eq_solo`). That machine takes the start time from the
fork and from every exec, and at the exit it has forgotten the process (`keys_agree_iff`). The decoder
gives an exit no start time and an exec its own time (`decoded_keys_agree_iff`).
-/

namespace ArgusEdr.Enrich

open Decode (EventType Event processKey)
open List hiding next
open Simulation (next answers trace)
open Runs (run AllSteps)

variable {opts : Options} {pid : UInt32}

/-! ## One step -/

def identity (event : Event) : UInt32 × UInt64 := (event.process.pid, event.process.startTimeNs)

theorem processKey_injective (pid : UInt32) : Function.Injective (processKey pid) := by
  intro start start' h
  rw [processKey, processKey, String.append_right_inj] at h
  exact UInt64.toNat_inj.mp (Go.formatUint_injective h)

section
variable (opts : Options) (found : Findings) (event : Event)

def core : Event :=
  { event with
    user := {}
    container := {}
    process := { event.process with sha256 := "", yaraMatches := [], stdioSocket := false } }

@[simp] theorem core_resolveUser : core (resolveUser opts found event) = core event := by
  rw [resolveUser]
  split <;> rfl

@[simp] theorem core_resolveContainer :
    core (resolveContainer opts found event) = core event := by
  rw [resolveContainer]
  split <;> rfl

@[simp] theorem core_hashExecutable : core (hashExecutable opts found event) = core event := by
  rw [hashExecutable]
  split <;> rfl

@[simp] theorem core_scanExecutable : core (scanExecutable opts found event) = core event := by
  rw [scanExecutable]
  split <;> rfl

@[simp] theorem core_markStdioSocket : core (markStdioSocket found event) = core event := by
  rw [markStdioSocket]
  split <;> rfl

theorem core_lookUp : core (lookUp opts found event) = core event := by
  simp [lookUp]

theorem frame_lookUp {γ : Type*} {f : Event → γ} (hf : ∀ event, f (core event) = f event) :
    f (lookUp opts found event) = f event := by
  rw [← hf, core_lookUp, hf]

theorem identity_lookUp : identity (lookUp opts found event) = identity event :=
  frame_lookUp opts found event fun _ => rfl

end

/-- What becomes of the start time of a process at one of its events. -/
def startAfter (start : Option UInt64) (event : Event) : Option UInt64 :=
  match event.type with
  | .exec | .execBlocked | .fork => some (startOf event)
  | .exit => none
  | _ => start

def ProcessTree.startNs (t : ProcessTree) (pid : UInt32) : Option UInt64 :=
  t.procs[pid]?.map ProcInfo.startNs

theorem startNs_update (t : ProcessTree) (event : Event) :
    (t.update event).startNs pid =
      if event.process.pid = pid then startAfter (t.startNs pid) event else t.startNs pid := by
  rw [ProcessTree.update, startAfter, ProcessTree.startNs, ProcessTree.startNs]
  cases event.type with
  | exec | execBlocked | fork =>
    simp only [Std.ExtTreeMap.getElem?_insert, Std.compare_eq_iff_eq]
    split <;> rfl
  | exit =>
    simp only [Std.ExtTreeMap.getElem?_erase, Std.compare_eq_iff_eq]
    split <;> rfl
  | _ => exact (ite_self _).symm

theorem stamp_eq (t : ProcessTree) (event : Event) :
    t.stamp event =
      if event.process.startTimeNs = 0 then (t.startNs event.process.pid).getD 0
      else event.process.startTimeNs := by
  rw [ProcessTree.stamp, ProcessTree.startNs]
  cases t.procs[event.process.pid]? with
  | none =>
    by_cases h : event.process.startTimeNs = 0
    · exact h.trans (if_pos h).symm
    · exact (if_neg h).symm
  | some => rfl

def soloStep (start : Option UInt64) (o : Observed) : Option UInt64 × UInt64 :=
  (startAfter start o.event,
    if o.event.process.startTimeNs = 0 then (startAfter start o.event).getD 0
    else o.event.process.startTimeNs)

theorem fst_enrich (h : opts.processTree = true) (t : ProcessTree) (o : Observed) :
    next (enrich opts) t o = t.update o.event := by
  rw [next, enrich, if_pos h, ProcessTree.enrich]

theorem identity_enrich (h : opts.processTree = true) (t : ProcessTree) (o : Observed) :
    identity (enrich opts t o).2 =
      (o.event.process.pid, (soloStep (t.startNs o.event.process.pid) o).2) := by
  rw [enrich, if_pos h, identity_lookUp, ProcessTree.enrich, ProcessTree.annotate, identity]
  simp only [stamp_eq, startNs_update, if_true, soloStep]

/-! ## Whole streams -/

theorem starts_eq_solo (h : opts.processTree = true) (t : ProcessTree) (stream : List Observed) :
    ((trace (enrich opts) t stream).filter fun p => p.1.event.process.pid == pid).map
        (fun p => (p.1, p.2.process.startTimeNs)) =
      trace soloStep (t.startNs pid) (stream.filter fun o => o.event.process.pid == pid) := by
  refine Simulation.trace_filter_of_frame
    (R := fun (t : ProcessTree) start => t.startNs pid = start)
    (fun o => o.event.process.pid == pid) (fun e : Event => e.process.startTimeNs) ?_ ?_ rfl stream
  · rintro t _ o rfl hkeep
    have hpid : o.event.process.pid = pid := by simpa using hkeep
    constructor
    · rw [fst_enrich h, startNs_update, if_pos hpid]
      rfl
    · exact (congrArg Prod.snd (identity_enrich h t o)).trans (by rw [hpid])
  · rintro t _ o rfl hkeep
    have hpid : o.event.process.pid ≠ pid := by simpa using hkeep
    rw [fst_enrich h, startNs_update, if_neg hpid]

def eventsOf (pid : UInt32) (stream : List Observed) : List Observed :=
  stream.filter fun o => o.event.process.pid == pid

/-- The process is forked, is active and exits; it is not forked or gone in between. -/
structure Lifetime (pid : UInt32) (fork : Observed) (activity : List Observed) (exit : Observed)
    (stream : List Observed) : Prop where
  events : eventsOf pid stream = fork :: activity ++ [exit]
  fork_type : fork.event.type = .fork
  activity_type : ∀ o ∈ activity, o.event.type ≠ .fork ∧ o.event.type ≠ .exit
  exit_type : exit.event.type = .exit

/-- An event between the fork and the exit agrees with a start time: an exec gives the process its
own, any other event may leave it open. -/
def Agrees (start : UInt64) (o : Observed) : Prop :=
  if isExec o.event then startOf o.event = start
  else o.event.process.startTimeNs = 0 ∨ o.event.process.startTimeNs = start

instance (start : UInt64) (o : Observed) : Decidable (Agrees start o) :=
  inferInstanceAs (Decidable (ite _ _ _))

def SameKey (pid : UInt32) (enriched : List Event) : Prop :=
  ∃ key, ∀ e ∈ enriched, e.process.pid = pid → e.processKey = key

theorem stamp_startOf (event : Event) :
    (if event.process.startTimeNs = 0 then (some (startOf event)).getD 0
      else event.process.startTimeNs) = startOf event := by
  rw [startOf]
  by_cases h : event.process.startTimeNs = 0
  all_goals simp [h]

variable {start : Option UInt64} {o : Observed} {event : Event} {env : Decode.Environment}

theorem soloStep_of_start (h : startAfter start o.event = some (startOf o.event)) :
    soloStep start o = (some (startOf o.event), startOf o.event) := by
  rw [soloStep, h, stamp_startOf]

theorem startAfter_exec (h : isExec event = true) (start : Option UInt64) :
    startAfter start event = some (startOf event) := by
  cases of_decide_eq_true h with
  | inl hexec => rw [startAfter, hexec]
  | inr hblocked => rw [startAfter, hblocked]

theorem startAfter_other (hexec : isExec event = false) (hfork : event.type ≠ .fork)
    (hexit : event.type ≠ .exit) (start : Option UInt64) : startAfter start event = start := by
  rw [isExec, decide_eq_false_iff_not, not_or] at hexec
  rw [startAfter]
  generalize event.type = type at hexec hfork hexit
  cases type with
  | exec => exact absurd rfl hexec.1
  | execBlocked => exact absurd rfl hexec.2
  | fork => exact absurd rfl hfork
  | exit => exact absurd rfl hexit
  | _ => rfl

/-- Between fork and exit, an event is stamped with the start time so far if it agrees with it, and
then the start time stays. -/
theorem soloStep_activity (start : UInt64) (htype : o.event.type ≠ .fork ∧ o.event.type ≠ .exit) :
    ((soloStep (some start) o).2 = start ↔ Agrees start o) ∧
      (Agrees start o → next soloStep (some start) o = some start) := by
  rw [Agrees, next]
  cases hexec : isExec o.event with
  | true =>
    rw [soloStep_of_start (startAfter_exec hexec _), if_pos rfl]
    exact ⟨Iff.rfl, fun h => congrArg some h⟩
  | false =>
    rw [soloStep, startAfter_other hexec htype.1 htype.2, if_neg Bool.false_ne_true]
    refine ⟨?_, fun _ => rfl⟩
    by_cases hzero : o.event.process.startTimeNs = 0
    all_goals simp [hzero]

theorem soloStep_exit (h : o.event.type = .exit) :
    (soloStep start o).2 = o.event.process.startTimeNs := by
  rw [soloStep, startAfter, h]
  by_cases hzero : o.event.process.startTimeNs = 0
  · exact (if_pos hzero).trans hzero.symm
  · exact if_neg hzero

theorem solo_same_iff (start : UInt64) {activity : List Observed} {exit : Observed}
    (htype : ∀ o ∈ activity, o.event.type ≠ .fork ∧ o.event.type ≠ .exit)
    (hexit : exit.event.type = .exit) :
    (∀ x ∈ answers soloStep (some start) (activity ++ [exit]), x = start) ↔
      (∀ o ∈ activity, Agrees start o) ∧ exit.event.process.startTimeNs = start := by
  -- as long as the events agree, the start time stays, so one step leads to the same claim
  induction activity with
  | nil => simp [soloStep_exit hexit]
  | cons o activity ih =>
    rw [forall_mem_cons] at htype
    obtain ⟨hkey, hstay⟩ := soloStep_activity start htype.1
    rw [cons_append, Simulation.answers_cons, forall_mem_cons, forall_mem_cons, hkey,
      and_assoc]
    refine and_congr_right fun hagrees => ?_
    rw [hstay hagrees]
    exact ih htype.2

theorem forall_keys_iff (h : opts.processTree = true) (t : ProcessTree) (stream : List Observed)
    (key : String) :
    (∀ e ∈ answers (enrich opts) t stream, e.process.pid = pid → e.processKey = key) ↔
      ∀ start ∈ answers soloStep (t.startNs pid) (eventsOf pid stream),
        processKey pid start = key := by
  have hpid : ∀ p ∈ trace (enrich opts) t stream, p.2.process.pid = p.1.event.process.pid :=
    Simulation.forall_mem_trace (Q := fun o (e : Event) => e.process.pid = o.event.process.pid)
      (fun t o => congrArg Prod.fst (identity_enrich h t o)) t stream
  rw [← Simulation.map_snd_trace, ← Simulation.map_snd_trace, eventsOf, ← starts_eq_solo h,
    map_map, forall_mem_map, forall_mem_map]
  constructor
  · intro hkeys p hp
    obtain ⟨hmem, hkeep⟩ := mem_filter.mp hp
    have hkeep' : p.2.process.pid = pid := (hpid p hmem).trans (by simpa using hkeep)
    rw [← hkeys p hmem hkeep', Event.processKey, hkeep']
    rfl
  · intro hstarts p hmem hkeep
    have hkeep' : (p.1.event.process.pid == pid) = true := by
      rw [← hpid p hmem, hkeep, beq_self_eq_true]
    rw [← hstarts p (mem_filter.mpr ⟨hmem, hkeep'⟩), Event.processKey, hkeep]
    rfl

section
variable {stream activity : List Observed} {fork exit : Observed}

theorem sameKey_iff_solo (h : opts.processTree = true) (t : ProcessTree)
    (hlife : Lifetime pid fork activity exit stream) :
    SameKey pid (answers (enrich opts) t stream) ↔
      ∀ x ∈ answers soloStep (some (startOf fork.event)) (activity ++ [exit]),
        x = startOf fork.event := by
  have hfork : soloStep (t.startNs pid) fork = (some (startOf fork.event), startOf fork.event) :=
    soloStep_of_start (by rw [startAfter, hlife.fork_type])
  simp only [SameKey, forall_keys_iff h, hlife.events, cons_append, Simulation.answers_cons,
    next, hfork, forall_mem_cons]
  constructor
  · rintro ⟨key, hhead, htail⟩ x hx
    exact processKey_injective pid ((htail x hx).trans hhead.symm)
  · intro hall
    exact ⟨_, rfl, fun x hx => congrArg (processKey pid) (hall x hx)⟩

/-- The keys agree if and only if the fork, every exec and the exit carry one start time themselves
and no other event carries another one. -/
theorem keys_agree_iff (h : opts.processTree = true) (t : ProcessTree)
    (hlife : Lifetime pid fork activity exit stream) :
    SameKey pid (answers (enrich opts) t stream) ↔
      startOf fork.event = exit.event.process.startTimeNs ∧
        ∀ o ∈ activity, Agrees exit.event.process.startTimeNs o := by
  rw [sameKey_iff_solo h t hlife, solo_same_iff _ hlife.activity_type hlife.exit_type]
  constructor
  · rintro ⟨hactivity, hexit⟩
    exact ⟨hexit.symm, hexit ▸ hactivity⟩
  · rintro ⟨hstart, hactivity⟩
    exact ⟨hstart ▸ hactivity, hstart.symm⟩

end

def recorded (type : EventType) (pid : UInt32) (startTimeNs : UInt64) : Observed where
  event := { monotonicNs := 0, type := type, process := { pid := pid, startTimeNs := startTimeNs } }

theorem keys_agree_recording :
    let stream := [recorded .fork 7 100, recorded .open_ 7 0, recorded .exec 8 300,
      recorded .exec 7 100, recorded .exit 7 100]
    Lifetime 7 (recorded .fork 7 100) [recorded .open_ 7 0, recorded .exec 7 100]
        (recorded .exit 7 100) stream ∧
      SameKey 7 (answers (enrich { processTree := true }) {} stream) := by
  have hlife : Lifetime 7 (recorded .fork 7 100) [recorded .open_ 7 0, recorded .exec 7 100]
      (recorded .exit 7 100) [recorded .fork 7 100, recorded .open_ 7 0, recorded .exec 8 300,
        recorded .exec 7 100, recorded .exit 7 100] :=
    { events := rfl
      fork_type := rfl
      activity_type := by decide
      exit_type := rfl }
  exact ⟨hlife, (keys_agree_iff rfl {} hlife).mpr ⟨rfl, by decide +kernel⟩⟩

/-! ## Decoded events -/

def Decoded (env : Decode.Environment) (o : Observed) : Prop :=
  ∃ (d : Decode.Decoder) (raw : Go.Bytes), d.decode env raw = .ok o.event

theorem Decoded.startTimeNs (h : Decoded env o) :
    o.event.process.startTimeNs = if isExec o.event then o.event.monotonicNs else 0 := by
  obtain ⟨d, raw, hdecode⟩ := h
  rw [Decode.Decoder.decode] at hdecode
  split at hdecode
  · cases hdecode
  · -- only the branch of an exec sets the start time
    rw [← Except.ok.inj hdecode]
    generalize Decode.EventType.ofWire (Decode.uint32 env raw Decode.offType) = type
    cases type <;> rfl

theorem Decoded.startOf (h : Decoded env o) : startOf o.event = o.event.monotonicNs := by
  rw [Enrich.startOf, h.startTimeNs]
  cases isExec o.event with
  | true => exact ite_self _
  | false => exact if_neg (not_not_intro rfl)

section
variable {env : Decode.Environment} {stream activity : List Observed} {fork exit : Observed}

/-- An exit has no start time of its own and the tree has forgotten the process. So the keys of
decoded events differ as soon as the fork or an exec has a time. -/
theorem decoded_keys_agree_iff (h : opts.processTree = true) (t : ProcessTree)
    (hdecoded : ∀ o ∈ stream, Decoded env o) (hlife : Lifetime pid fork activity exit stream) :
    SameKey pid (answers (enrich opts) t stream) ↔
      fork.event.monotonicNs = 0 ∧
        ∀ o ∈ activity, isExec o.event = true → o.event.monotonicNs = 0 := by
  -- the events of the process are decoded, so their start times are known
  have hmem : ∀ o ∈ fork :: activity ++ [exit], Decoded env o := by
    rw [← hlife.events]
    exact fun o ho => hdecoded o (mem_of_mem_filter ho)
  have hfork : Decoded env fork := hmem fork (by simp)
  have hexit : exit.event.process.startTimeNs = 0 := by
    rw [(hmem exit (by simp)).startTimeNs, isExec, hlife.exit_type]
    rfl
  have hagrees : ∀ o ∈ activity,
      (Agrees 0 o ↔ (isExec o.event = true → o.event.monotonicNs = 0)) := by
    intro o ho
    have ho' : Decoded env o := hmem o (by simp [ho])
    rw [Agrees, ho'.startOf, ho'.startTimeNs]
    cases isExec o.event with
    | true | false => simp
  rw [sameKey_iff_solo h t hlife, solo_same_iff _ hlife.activity_type hlife.exit_type,
    hfork.startOf, hexit]
  constructor
  · rintro ⟨hactivity, hzero⟩
    rw [← hzero] at hactivity ⊢
    exact ⟨rfl, fun o ho => (hagrees o ho).mp (hactivity o ho)⟩
  · rintro ⟨hzero, hactivity⟩
    rw [hzero]
    exact ⟨fun o ho => (hagrees o ho).mpr (hactivity o ho), rfl⟩

end

def reported (type : UInt32) (timestampNs : UInt64) : Observed where
  event := ({ type := type, pid := 7, timestampNs := timestampNs } :
    Decode.KernelEvent).reported Decode.linux {}

theorem decoded_reported (type : UInt32) (timestampNs : UInt64) :
    Decoded Decode.linux (reported type timestampNs) :=
  ⟨{}, _, Decode.decode_members {} _⟩

/-- A process that is forked, executes a program and exits has three keys. -/
theorem exec_and_exit_change_key :
    let stream := [reported 2 100, reported 1 200, reported 3 300]
    (∀ o ∈ stream, Decoded Decode.linux o) ∧
      Lifetime 7 (reported 2 100) [reported 1 200] (reported 3 300) stream ∧
      (answers (enrich { processTree := true }) {} stream).map Event.processKey =
        ["7:100", "7:200", "7:0"] ∧
      ¬ SameKey 7 (answers (enrich { processTree := true }) {} stream) := by
  have hdecoded : ∀ o ∈ [reported 2 100, reported 1 200, reported 3 300],
      Decoded Decode.linux o := by
    simp [decoded_reported]
  have hlife : Lifetime 7 (reported 2 100) [reported 1 200] (reported 3 300)
      [reported 2 100, reported 1 200, reported 3 300] :=
    { events := rfl
      fork_type := rfl
      activity_type := by decide
      exit_type := rfl }
  refine ⟨hdecoded, hlife, by decide +kernel, fun hsame => ?_⟩
  have hzero := ((decoded_keys_agree_iff rfl {} hdecoded hlife).mp hsame).1
  exact absurd hzero (by decide)

end ArgusEdr.Enrich
