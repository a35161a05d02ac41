import ArgusEdr.Enrich.EnricherTheorems
import ArgusEdr.Sensor.Programs

/-!
# What a denied exec leaves in the process tree

The LSM hook reports a denied exec under the id of the process that tried it, and the tree takes the
report for an exec. Two trees that know a process by different entries stay apart at that process only,
until it is forked, executes a program or exits (`DifferAt.update`, `update_eq_of_replaces`). In between
an event shows the difference exactly if it belongs to the process and carries no start time, has it for
its parent, or meets it among its ancestors (`lineage_eq_iff`).
-/

namespace ArgusEdr.Enrich

open Sensor (Task enforcementEvent)
open List hiding Vector
open ProcessTree (ancestry ancestryFrom stamp)
open Go (Bytes ascii)
open Decode (EventType Event processKey)
open Simulation (next answers)
open Runs (run AllSteps)

variable {opts : Options} {p : UInt32} {i i' : ProcInfo} {t t' : ProcessTree}

/-! ## What the tree writes into an event -/

structure Lineage where
  parentName : Bytes
  parentExecutable : Bytes
  ancestors : List Bytes
  key : String
deriving Repr, DecidableEq

def lineage (event : Event) : Lineage where
  parentName := event.process.parentName
  parentExecutable := event.process.parentExecutable
  ancestors := event.process.ancestors
  key := event.processKey

theorem lineage_lookUp (opts : Options) (found : Findings) (event : Event) :
    lineage (lookUp opts found event) = lineage event :=
  frame_lookUp opts found event fun _ => rfl

theorem lineage_enrich (h : opts.processTree = true) (t : ProcessTree) (o : Observed) :
    lineage (enrich opts t o).2 = lineage ((t.update o.event).annotate o.event) := by
  rw [enrich, if_pos h, lineage_lookUp, ProcessTree.enrich]

def ProcessTree.parentOf (t : ProcessTree) (event : Event) : Bytes × Bytes :=
  (t.procs[event.process.ppid]?.map fun info => (info.name, info.exe)).getD
    (event.process.parentName, event.process.parentExecutable)

variable {event : Event}

theorem lineage_annotate_eq_iff :
    lineage (t.annotate event) = lineage (t'.annotate event) ↔
      t.parentOf event = t'.parentOf event ∧ t.stamp event = t'.stamp event ∧
        t.ancestry event.process.pid event.process.ppid =
          t'.ancestry event.process.pid event.process.ppid := by
  have hparent : ∀ t : ProcessTree, t.parentOf event =
      ((t.annotate event).process.parentName, (t.annotate event).process.parentExecutable) := by
    intro t
    rw [ProcessTree.parentOf, ProcessTree.annotate]
    cases t.procs[event.process.ppid]? with
    | none | some => rfl
  have hkey : (t.annotate event).processKey = (t'.annotate event).processKey ↔
      t.stamp event = t'.stamp event :=
    (processKey_injective event.process.pid).eq_iff
  rw [hparent, hparent, Prod.mk.injEq, ← hkey, lineage, lineage, Lineage.mk.injEq]
  constructor
  · rintro ⟨hname, hexe, hancestors, hkeys⟩
    exact ⟨⟨hname, hexe⟩, hkeys, hancestors⟩
  · rintro ⟨⟨hname, hexe⟩, hkeys, hancestors⟩
    exact ⟨hname, hexe, hancestors, hkeys⟩

/-! ## Entries -/

/-- The entry an event puts in the place of the one its process has; `none` if it leaves the tree
alone. -/
def written (event : Event) : Option (Option ProcInfo) :=
  match event.type with
  | .exec | .execBlocked =>
    some (some
      { ppid := event.process.ppid
        name := event.process.name
        exe := event.process.executable
        startNs := startOf event })
  | .fork =>
    some (some
      { ppid := event.process.ppid, name := event.process.name, startNs := startOf event })
  | .exit => some none
  | _ => none

theorem getElem?_update (t : ProcessTree) (event : Event) (q : UInt32) :
    (t.update event).procs[q]? =
      if event.process.pid = q then (written event).getD t.procs[q]? else t.procs[q]? := by
  rw [ProcessTree.update, written]
  cases event.type with
  | exec | execBlocked | fork =>
    simp only [Std.ExtTreeMap.getElem?_insert, Std.compare_eq_iff_eq, Option.getD_some]
  | exit => simp only [Std.ExtTreeMap.getElem?_erase, Std.compare_eq_iff_eq, Option.getD_some]
  | _ => exact (ite_self _).symm

@[simp] theorem maxDepth_update (t : ProcessTree) (event : Event) :
    (t.update event).maxDepth = t.maxDepth := by
  rw [ProcessTree.update]
  cases event.type <;> rfl

/-- The event is of the process and gives it a new entry or takes its entry away. -/
def Replaces (p : UInt32) (event : Event) : Prop :=
  event.process.pid = p ∧ (written event).isSome

instance (p : UInt32) (event : Event) : Decidable (Replaces p event) :=
  inferInstanceAs (Decidable (_ ∧ _))

theorem ProcessTree.ext_entries (hdepth : t.maxDepth = t'.maxDepth)
    (h : ∀ q : UInt32, t.procs[q]? = t'.procs[q]?) : t = t' := by
  obtain ⟨procs, depth⟩ := t
  obtain ⟨procs', depth'⟩ := t'
  have hprocs : procs = procs' := Std.ExtTreeMap.ext_getElem? h
  rw [hprocs, show depth = depth' from hdepth]

/-! ## Trees that differ at one process -/

/-- Two trees that know the process `p` by the entries `i` and `i'` and agree on all others. -/
structure DifferAt (p : UInt32) (i i' : ProcInfo) (t t' : ProcessTree) : Prop where
  depth : t.maxDepth = t'.maxDepth
  left : t.procs[p]? = some i
  right : t'.procs[p]? = some i'
  others : ∀ q, q ≠ p → t.procs[q]? = t'.procs[q]?

theorem update_eq_of_replaces (h : DifferAt p i i' t t') (hp : Replaces p event) :
    t.update event = t'.update event := by
  obtain ⟨entry, hentry⟩ := Option.isSome_iff_exists.mp hp.2
  apply ProcessTree.ext_entries
  · rw [maxDepth_update, maxDepth_update, h.depth]
  · intro q
    rw [getElem?_update, getElem?_update, hp.1, hentry]
    by_cases hq : p = q
    · rw [if_pos hq, if_pos hq]
      rfl
    · rw [if_neg hq, if_neg hq, h.others q (Ne.symm hq)]

theorem getElem?_update_of_not_replaces (hp : ¬Replaces p event) :
    (t.update event).procs[p]? = t.procs[p]? := by
  rw [getElem?_update]
  by_cases hpid : event.process.pid = p
  · have hnone : written event = none :=
      Option.not_isSome_iff_eq_none.mp fun hsome => hp ⟨hpid, hsome⟩
    rw [if_pos hpid, hnone, Option.getD_none]
  · rw [if_neg hpid]

theorem DifferAt.update (h : DifferAt p i i' t t') (hp : ¬Replaces p event) :
    DifferAt p i i' (t.update event) (t'.update event) where
  depth := by rw [maxDepth_update, maxDepth_update, h.depth]
  left := (getElem?_update_of_not_replaces hp).trans h.left
  right := (getElem?_update_of_not_replaces hp).trans h.right
  others := by
    intro q hq
    rw [getElem?_update, getElem?_update, h.others q hq]

/-! ## What an event shows of the difference -/

def ProcessTree.visitedFrom (t : ProcessTree) (pid : UInt32) : ℕ → UInt32 → List UInt32
  | 0, _ => []
  | depth + 1, current =>
    if current = 0 ∨ current = pid then []
    else
      match t.procs[current]? with
      | none => []
      | some info => current :: t.visitedFrom pid depth info.ppid

def ProcessTree.visited (t : ProcessTree) (event : Event) : List UInt32 :=
  t.visitedFrom event.process.pid t.maxDepth event.process.ppid

theorem ancestryFrom_eq_nil_iff (pid : UInt32) (depth : ℕ) (current : UInt32) :
    t.ancestryFrom pid depth current = [] ↔ t.visitedFrom pid depth current = [] := by
  cases depth with
  | zero => simp [ancestryFrom, ProcessTree.visitedFrom]
  | succ =>
    rw [ancestryFrom, ProcessTree.visitedFrom]
    split
    · simp
    · cases t.procs[current]? with
      | none | some => simp

theorem ancestryFrom_zero (t : ProcessTree) (pid : UInt32) (depth : ℕ) :
    t.ancestryFrom pid depth 0 = [] := by
  cases depth with
  | zero => rfl
  | succ => exact if_pos (Or.inl rfl)

def EndsAt (p : UInt32) (visited : List UInt32) : Prop :=
  visited = visited.takeWhile (· ≠ p) ++ [p]

/-- The second tree ends every walk at `p`. So the ancestors are the same only if the walk does not
come to `p`, or ends there in the first tree as well and finds the same name. -/
theorem ancestryFrom_eq_iff (h : DifferAt p i i' t t') (hroot : i'.ppid = 0) (pid : UInt32)
    (depth : ℕ) (current : UInt32) :
    t.ancestryFrom pid depth current = t'.ancestryFrom pid depth current ↔
      (p ∈ t.visitedFrom pid depth current →
        i.name = i'.name ∧ EndsAt p (t.visitedFrom pid depth current)) := by
  induction depth generalizing current with
  | zero => simp [ancestryFrom, ProcessTree.visitedFrom]
  | succ depth ih =>
    rw [ancestryFrom, ancestryFrom, ProcessTree.visitedFrom]
    by_cases hstop : current = 0 ∨ current = pid
    · simp [hstop]
    · rw [if_neg hstop, if_neg hstop, if_neg hstop]
      by_cases hp : current = p
      · rw [hp, h.left, h.right]
        have hends : EndsAt p (p :: t.visitedFrom pid depth i.ppid) ↔
            t.visitedFrom pid depth i.ppid = [] := by
          simp [EndsAt]
        simp only [hroot, ancestryFrom_zero, List.cons.injEq, ancestryFrom_eq_nil_iff, hends,
          mem_cons_self, forall_const]
      · rw [← h.others current hp]
        cases t.procs[current]? with
        | none => simp
        | some info =>
          have hends : EndsAt p (current :: t.visitedFrom pid depth info.ppid) ↔
              EndsAt p (t.visitedFrom pid depth info.ppid) := by
            simp [EndsAt, hp]
          simp only [List.cons.injEq, true_and, ih, hends, mem_cons, Ne.symm hp, false_or]

/-- An event that looks the same whether the tree has the entry `i` or `i'` for the process `p`; `t`
is the first of the two trees. -/
structure SameView (p : UInt32) (i i' : ProcInfo) (t : ProcessTree) (event : Event) : Prop where
  own : event.process.pid = p → event.process.startTimeNs = 0 → i.startNs = i'.startNs
  parent : event.process.ppid = p → i.name = i'.name ∧ i.exe = i'.exe
  ancestor : p ∈ t.visited event → i.name = i'.name ∧ EndsAt p (t.visited event)

theorem stamp_eq_iff (h : DifferAt p i i' t t') (event : Event) :
    t.stamp event = t'.stamp event ↔
      (event.process.pid = p → event.process.startTimeNs = 0 → i.startNs = i'.startNs) := by
  rw [stamp, stamp]
  by_cases hp : event.process.pid = p
  · rw [hp, h.left, h.right]
    by_cases hzero : event.process.startTimeNs = 0
    all_goals simp [hzero]
  · simp [h.others _ hp, hp]

theorem parentOf_eq_iff (h : DifferAt p i i' t t') (event : Event) :
    t.parentOf event = t'.parentOf event ↔
      (event.process.ppid = p → i.name = i'.name ∧ i.exe = i'.exe) := by
  rw [ProcessTree.parentOf, ProcessTree.parentOf]
  by_cases hp : event.process.ppid = p
  · simp [hp, h.left, h.right]
  · simp [h.others _ hp, hp]

theorem lineage_eq_iff (h : DifferAt p i i' t t') (hroot : i'.ppid = 0) (event : Event) :
    lineage (t.annotate event) = lineage (t'.annotate event) ↔ SameView p i i' t event := by
  have hancestry := ancestryFrom_eq_iff h hroot event.process.pid t.maxDepth event.process.ppid
  rw [lineage_annotate_eq_iff, parentOf_eq_iff h, stamp_eq_iff h, ancestry,
    ancestry, ← h.depth, hancestry]
  constructor
  · rintro ⟨hparent, hown, hancestor⟩
    exact ⟨hown, hparent, hancestor⟩
  · intro hsame
    exact ⟨hsame.parent, hsame.own, hsame.ancestor⟩

/-! ## Whole streams -/

/-- The events up to the next one that replaces the entry of `p`. -/
def untilReplaced (p : UInt32) (stream : List Observed) : List Observed :=
  stream.takeWhile fun o => ¬Replaces p o.event

theorem lineages_eq_iff (h : opts.processTree = true) (ht : DifferAt p i i' t t')
    (hroot : i'.ppid = 0) (stream : List Observed) :
    (answers (enrich opts) t stream).map lineage = (answers (enrich opts) t' stream).map lineage ↔
      AllSteps (next (enrich opts)) (fun t o => SameView p i i' (t.update o.event) o.event) t
        (untilReplaced p stream) := by
  induction stream generalizing t t' with
  | nil => simp [untilReplaced]
  | cons o stream ih =>
    rw [Simulation.answers_cons, Simulation.answers_cons, map_cons, map_cons,
      lineage_enrich h, lineage_enrich h, fst_enrich h, fst_enrich h, untilReplaced]
    by_cases hp : Replaces p o.event
    · -- from here on the trees are the same
      rw [update_eq_of_replaces ht hp, takeWhile_cons_of_neg (by simp [hp])]
      simp
    · rw [takeWhile_cons_of_pos (by simp [hp]), AllSteps.cons_iff, fst_enrich h,
        List.cons.injEq, lineage_eq_iff (ht.update hp) hroot, ih (ht.update hp)]
      rfl

/-! ## The report of the hook -/

/-- The entry the tree has of a process after its exec was denied. -/
def deniedInfo (m : Sensor.Moment) (current : Task) (record : Lsm.Record) : ProcInfo where
  ppid := 0
  name := Decode.text current.comm
  exe := Decode.text (enforcementEvent m current record).filename
  startNs := m.now

section
variable {object : Lsm.Object} {filename : Bytes} {record : Lsm.Record} {m : Sensor.Moment}
  {current : Task} {env : Decode.Environment} {d : Decode.Decoder} {denied : Event}

theorem type_of_bprmCheck {room : Bool} {ret : ℤ}
    (h : (Lsm.bprmCheck object filename room ret).2 = some record) :
    record.type = .execBlocked := by
  rw [Lsm.bprmCheck] at h
  split_ifs at h
  obtain ⟨-, hrecord⟩ := Option.ite_none_right_eq_some.mp h
  rw [← Option.some.inj hrecord]

theorem written_denied (htype : record.type = .execBlocked)
    (hdecode : d.decode env (((enforcementEvent m current record).members
      env.order).flatMap Layout.Member.bytes) = .ok denied) :
    denied.process.pid = current.tgid ∧
      written denied = some (some (deniedInfo m current record)) := by
  rw [Decode.decode_members] at hdecode
  rw [← Except.ok.inj hdecode]
  have hwire : EventType.ofWire (enforcementEvent m current record).type = .execBlocked := by
    rw [enforcementEvent, Sensor.reserveEvent, htype]
    rfl
  constructor
  · rw [Decode.KernelEvent.reported, Decode.KernelEvent.process, hwire]
    rfl
  · simp only [written, startOf, Decode.KernelEvent.reported, Decode.KernelEvent.process, hwire,
      ite_self]
    rfl

theorem differAt_denied {info : ProcInfo} (htype : record.type = .execBlocked)
    (hdecode : d.decode env (((enforcementEvent m current record).members
      env.order).flatMap Layout.Member.bytes) = .ok denied)
    (hknown : t.procs[current.tgid]? = some info) :
    DifferAt current.tgid info (deniedInfo m current record) t (t.update denied) := by
  obtain ⟨hpid, hwritten⟩ := written_denied htype hdecode
  refine ⟨(maxDepth_update t denied).symm, hknown, ?_, ?_⟩
  · rw [getElem?_update, if_pos hpid, hwritten, Option.getD_some]
  · intro q hq
    rw [getElem?_update, hpid, if_neg (Ne.symm hq)]

/-- The report of a denied exec of a known process changes nothing in the other events exactly if
each of them, up to the next fork, exec or exit of the process, looks the same with the entry of the
report as with the one the process had. -/
theorem denied_exec_unseen_iff (h : opts.processTree = true) (t : ProcessTree)
    {pre post : List Observed} {info : ProcInfo} {found : Findings}
    (hdenied : Lsm.bprmCheck object filename true 0 = (Lsm.eperm, some record))
    (hdecode : d.decode env (((enforcementEvent m current record).members
      env.order).flatMap Layout.Member.bytes) = .ok denied)
    (hknown : (run (next (enrich opts)) t pre).procs[current.tgid]? = some info) :
    ((answers (enrich opts) t (pre ++ ⟨denied, found⟩ :: post)).eraseIdx pre.length).map lineage =
        (answers (enrich opts) t (pre ++ post)).map lineage ↔
      AllSteps (next (enrich opts))
        (fun t o => SameView current.tgid info (deniedInfo m current record) (t.update o.event)
          o.event)
        (run (next (enrich opts)) t pre) (untilReplaced current.tgid post) := by
  have hdiffer := differAt_denied (type_of_bprmCheck (congrArg Prod.snd hdenied)) hdecode hknown
  rw [← lineages_eq_iff h hdiffer rfl, Simulation.answers_append, Simulation.answers_append,
    Simulation.answers_cons, eraseIdx_append_of_length_le (by simp),
    Simulation.length_answers, Nat.sub_self, eraseIdx_cons_zero, map_append,
    map_append, append_right_inj, fst_enrich h]
  exact eq_comm

end

/-! ## A web server that is used to run a program -/

def commOf (name : String) : Vector UInt8 16 := Vector.ofFn fun i => ((ascii name)[i.val]?).getD 0

def server : Task := { pid := 5, tgid := 5, parentTgid := 1, comm := commOf "nginx" }

def worker : Task := { pid := 7, tgid := 7, parentTgid := 5, comm := commOf "nginx" }

def seen (e : Decode.KernelEvent) : Observed where
  event := e.reported Decode.linux {}

def serverStarts : List Observed :=
  [seen (Sensor.handleExec ∅ { now := 100 } server (ascii "/usr/sbin/nginx")).2,
   seen (Sensor.handleFork { now := 200 } server 7 5 (ascii "nginx"))]

/-- The record of the exec of `/tmp/x`, as the hook submits it. -/
def deniedRecord : Lsm.Record where
  type := .execBlocked
  filename := Lsm.readStr 256 (ascii "/tmp/x")
  ret := Lsm.eperm

def deniedExec : Observed := seen (enforcementEvent { now := 300 } worker deniedRecord)

theorem denied_exec_before_exit :
    let exit := (Sensor.handleExit ∅ { now := 400 } worker).2.toList.map seen
    ((answers (enrich { processTree := true }) {} (serverStarts ++ deniedExec :: exit)).eraseIdx
        2).map lineage =
      (answers (enrich { processTree := true }) {} (serverStarts ++ exit)).map lineage := by
  refine (denied_exec_unseen_iff rfl {}
    (show Lsm.bprmCheck { enforceConfig := Lsm.modeEnforce } (ascii "/tmp/x") true 0 =
      (Lsm.eperm, some deniedRecord) by decide +kernel)
    (Decode.decode_members {} _)
    (show _ = some
      { ppid := 5, name := ascii "nginx", exe := [], startNs := 200 } by decide +kernel)).mpr ?_
  -- the exit is the next event of the worker
  exact trivial

/-- The worker tries to run `/tmp/x`, then opens a file and forks. The denied exec gives the open
another key, and the fork another parent and fewer ancestors. -/
theorem denied_exec_rewrites_process :
    let after :=
      [seen (Sensor.newEvent { now := 400 } worker Sensor.eventOpen),
       seen (Sensor.handleFork { now := 500 } worker 8 7 (ascii "nginx"))]
    Lsm.bprmCheck { enforceConfig := Lsm.modeEnforce } (ascii "/tmp/x") true 0 =
        (Lsm.eperm, some deniedRecord) ∧
      (run (next (enrich { processTree := true })) {} serverStarts).procs[worker.tgid]? =
        some { ppid := 5, name := ascii "nginx", exe := [], startNs := 200 } ∧
      ((answers (enrich { processTree := true }) {} (serverStarts ++ after)).drop 2).map lineage =
        [⟨ascii "nginx", ascii "/usr/sbin/nginx", [ascii "nginx"], "7:200"⟩,
         ⟨ascii "nginx", [], [ascii "nginx", ascii "nginx"], "8:500"⟩] ∧
      ((answers (enrich { processTree := true }) {} (serverStarts ++ deniedExec :: after)).drop
          3).map lineage =
        [⟨ascii "nginx", ascii "/usr/sbin/nginx", [ascii "nginx"], "7:300"⟩,
         ⟨ascii "nginx", ascii "/tmp/x", [ascii "nginx"], "8:500"⟩] := by
  refine ⟨?_, ?_, ?_, ?_⟩ <;> decide +kernel

end ArgusEdr.Enrich
