import ArgusEdr.Enrich.TreeTheorems

/-!
# Tasks and the process tree

When a task is created, executes a program or ends, a sensor runs in the kernel, and what it emits is
decoded and taken over by the process tree of the agent. `Host` has the tasks that are alive and the tree.

A new task is entered under its own id, be it a process or a thread, but only the end of a leader is
reported. So the ids in the tree are those of live tasks exactly as long as every task that ends with
an entry is a leader whose report gets through, and no thread tries to run a program after its leader
has ended (`only_live_iff`).
-/

namespace ArgusEdr.Sensor

open List

open Go (Bytes)
open Decode (KernelEvent EventType Decoder linux)
open Enrich (ProcessTree)
open Runs (run AllSteps)

/-! ## The host -/

/-- The tasks that are alive, the cache of the sensors and the tree of the agent. -/
structure Host where
  tasks : List Task
  cache : ArgvCache := ∅
  tree : ProcessTree := {}

/-- What happens to a task. `check` is the hook of the enforcement object on an exec, and `other`
stands for the sensors that do not follow tasks. -/
inductive Happening where
  | fork (parent child : Task)
  | execve (current : Task) (argv : List Bytes)
  | exec (current : Task) (filename : Bytes)
  | check (object : Lsm.Object) (current : Task) (filename : Bytes)
  | exit (current : Task)
  | other (e : KernelEvent)

/-- A happening with its moment, and whether the ring buffer has room then. -/
structure Occurrence where
  moment : Moment
  room : Bool := true
  happening : Happening

def tasksAfter (tasks : List Task) : Happening → List Task
  | .fork _ child => child :: tasks
  | .exit current => tasks.filter (·.pid ≠ current.pid)
  | _ => tasks

/-- What the sensors make of it. -/
def sense (cache : ArgvCache) (m : Moment) : Happening → ArgvCache × Option KernelEvent
  | .fork parent child =>
    (cache, some (handleFork m parent child.pid parent.pid child.comm.toList))
  | .execve current argv => (handleExecve cache current argv, none)
  | .exec current filename =>
    ((handleExec cache m current filename).1, some (handleExec cache m current filename).2)
  | .check object current filename =>
    (cache, (Lsm.bprmCheck object filename true 0).2.map (enforcementEvent m current))
  | .exit current => handleExit cache m current
  | .other e => (cache, some e)

section
variable (env : Decode.Environment) (d : Decoder)

def observe (t : ProcessTree) (e : KernelEvent) : ProcessTree :=
  match d.decode env ((e.members env.order).flatMap Layout.Member.bytes) with
  | .ok event => (t.enrich event).1
  | .error _ => t

def Host.step (host : Host) (o : Occurrence) : Host :=
  let sensed := sense host.cache o.moment o.happening
  { tasks := tasksAfter host.tasks o.happening
    cache := sensed.1
    tree :=
      match sensed.2 with
      | some e => if o.room then observe env d host.tree e else host.tree
      | none => host.tree }

end

def Host.ids (host : Host) : List UInt32 := host.tasks.map Task.pid

def Passive (e : KernelEvent) : Prop :=
  EventType.ofWire e.type ∉ [.exec, .execBlocked, .fork, .exit]

/-- A program is executed by a live task, which leads its thread group by then. -/
def Possible (host : Host) (o : Occurrence) : Prop :=
  match o.happening with
  | .exec current _ => current.IsLeader ∧ current.pid ∈ host.ids
  | .other e => Passive e
  | _ => True

/-- The tree has no entry for a task that is not alive. -/
def OnlyLive (host : Host) : Prop := ∀ id ∈ host.tree.procs, id ∈ host.ids

/-- What happens does not leave an entry behind: a task with an entry is a leader when it ends, and
the buffer has room for the report; the leader of a thread whose exec is reported by the hook is
alive. -/
def Accounted (host : Host) (o : Occurrence) : Prop :=
  match o.happening with
  | .exit current => current.pid ∈ host.tree.procs → current.IsLeader ∧ o.room = true
  | .check object current filename =>
    (Lsm.bprmCheck object filename true 0).2.isSome → o.room = true → current.tgid ∈ host.ids
  | _ => True

/-! ## One step -/

section
variable {env : Decode.Environment} {d : Decoder} {host : Host} {t : ProcessTree}
  {e : KernelEvent} {o : Occurrence} {id : UInt32}

theorem observe_eq : observe env d t e = t.update (e.reported env d) := by
  rw [observe, Decode.decode_members]
  rfl

theorem pid_reported : (e.reported env d).process.pid = e.pid := by
  rw [Decode.KernelEvent.reported, Decode.KernelEvent.process]
  generalize EventType.ofWire e.type = type
  cases type <;> rfl

theorem mem_observe_of_enter (h : EventType.ofWire e.type ∈ [.exec, .execBlocked, .fork]) :
    id ∈ (observe env d t e).procs ↔ e.pid = id ∨ id ∈ t.procs := by
  have hpid : (e.reported env d).process.pid = e.pid := pid_reported
  have htype : (e.reported env d).type ∈ [.exec, .execBlocked, .fork] := h
  rw [observe_eq, ProcessTree.update]
  simp only [mem_cons, not_mem_nil, or_false] at htype
  rcases htype with htype | htype | htype
  all_goals
    simp only [htype, hpid, Std.ExtTreeMap.mem_insert, Std.compare_eq_iff_eq]

theorem mem_observe_of_exit (h : EventType.ofWire e.type = .exit) :
    id ∈ (observe env d t e).procs ↔ e.pid ≠ id ∧ id ∈ t.procs := by
  have hpid : (e.reported env d).process.pid = e.pid := pid_reported
  have htype : (e.reported env d).type = .exit := h
  rw [observe_eq, ProcessTree.update]
  simp only [htype, hpid, Std.ExtTreeMap.mem_erase, ne_eq, Std.compare_eq_iff_eq]

theorem observe_of_passive (h : Passive e) : observe env d t e = t := by
  have htype : (e.reported env d).type ∉ [.exec, .execBlocked, .fork, .exit] := h
  rw [observe_eq, ProcessTree.update]
  generalize (e.reported env d).type = type at htype
  cases type with
  | exec | execBlocked | fork | exit => simp at htype
  | _ => rfl

theorem tree_step_of_silent
    (h : (sense host.cache o.moment o.happening).2 = none ∨ o.room = false) :
    (host.step env d o).tree = host.tree := by
  rw [Host.step]
  rcases h with h | h
  · simp only [h]
  · simp only [h, Bool.false_eq_true, if_false]
    split <;> rfl

theorem tree_step_of_emitted (h : (sense host.cache o.moment o.happening).2 = some e)
    (hroom : o.room = true) : (host.step env d o).tree = observe env d host.tree e := by
  simp only [Host.step, h, hroom, if_true]

section
variable {host' : Host}

theorem onlyLive_of_same_tree (h : OnlyLive host) (htree : host'.tree = host.tree)
    (hids : host.ids ⊆ host'.ids) : OnlyLive host' := by
  intro id hid
  rw [htree] at hid
  exact hids (h id hid)

theorem onlyLive_enter_iff (h : OnlyLive host) (htree : host'.tree = observe env d host.tree e)
    (hids : host.ids ⊆ host'.ids) (htype : EventType.ofWire e.type ∈ [.exec, .execBlocked, .fork]) :
    OnlyLive host' ↔ e.pid ∈ host'.ids := by
  rw [OnlyLive, htree]
  constructor
  · intro hlive
    exact hlive e.pid ((mem_observe_of_enter htype).mpr (Or.inl rfl))
  · intro hmem id hid
    rcases (mem_observe_of_enter htype).mp hid with rfl | hold
    · exact hmem
    · exact hids (h id hold)

end

/-! ## Each happening -/

section
variable {m : Moment} {room : Bool} {current : Task}

theorem onlyLive_fork (h : OnlyLive host) (parent child : Task) :
    OnlyLive (host.step env d ⟨m, room, .fork parent child⟩) := by
  have hids : host.ids ⊆ (host.step env d ⟨m, room, .fork parent child⟩).ids :=
    subset_cons_self child.pid host.ids
  cases room with
  | false => exact onlyLive_of_same_tree h (tree_step_of_silent (Or.inr rfl)) hids
  | true =>
    have htype : EventType.ofWire (handleFork m parent child.pid parent.pid
      child.comm.toList).type = .fork := rfl
    apply (onlyLive_enter_iff h (tree_step_of_emitted rfl rfl) hids (by simp [htype])).mpr
    exact mem_cons_self

theorem onlyLive_exec (h : OnlyLive host) (hleader : current.IsLeader)
    (hmem : current.pid ∈ host.ids) (filename : Bytes) :
    OnlyLive (host.step env d ⟨m, room, .exec current filename⟩) := by
  have hids : host.ids ⊆ (host.step env d ⟨m, room, .exec current filename⟩).ids :=
    List.Subset.refl host.ids
  cases room with
  | false => exact onlyLive_of_same_tree h (tree_step_of_silent (Or.inr rfl)) hids
  | true =>
    have hpid : (handleExec host.cache m current filename).2.pid = current.tgid := by
      rw [handleExec]
      split <;> rfl
    have htype : EventType.ofWire (handleExec host.cache m current filename).2.type = .exec := by
      rw [handleExec]
      split <;> rfl
    apply (onlyLive_enter_iff h (tree_step_of_emitted rfl rfl) hids (by simp [htype])).mpr
    rw [hpid, ← hleader]
    exact hmem

theorem onlyLive_check_iff (h : OnlyLive host) (object : Lsm.Object) (filename : Bytes) :
    OnlyLive (host.step env d ⟨m, room, .check object current filename⟩) ↔
      ((Lsm.bprmCheck object filename true 0).2.isSome → room = true →
        current.tgid ∈ host.ids) := by
  have hids : host.ids ⊆ (host.step env d ⟨m, room, .check object current filename⟩).ids :=
    List.Subset.refl host.ids
  cases hcheck : (Lsm.bprmCheck object filename true 0).2 with
  | none =>
    have hsilent : (sense host.cache m (.check object current filename)).2 = none :=
      congrArg (Option.map (enforcementEvent m current)) hcheck
    have hlive := onlyLive_of_same_tree h (tree_step_of_silent (Or.inl hsilent)) hids
    exact iff_of_true hlive (by simp)
  | some record =>
    cases room with
    | false =>
      exact iff_of_true (onlyLive_of_same_tree h (tree_step_of_silent (Or.inr rfl)) hids) (by simp)
    | true =>
      have hemitted : (sense host.cache m (.check object current filename)).2 =
          some (enforcementEvent m current record) :=
        congrArg (Option.map (enforcementEvent m current)) hcheck
      have htype : EventType.ofWire (enforcementEvent m current record).type = .execBlocked := by
        rw [enforcementEvent, reserveEvent, Enrich.type_of_bprmCheck hcheck]
        rfl
      rw [onlyLive_enter_iff h (tree_step_of_emitted hemitted rfl) hids (by simp [htype])]
      simp only [Option.isSome_some, forall_const]
      rfl

theorem handleExit_of_leader (h : current.IsLeader) (cache : ArgvCache) :
    (handleExit cache m current).2 =
      some { newEvent m current eventExit with ret := current.exitCode >>> 8 } :=
  congrArg Prod.snd (if_neg (not_not_intro h.symm))

theorem handleExit_of_thread (h : ¬current.IsLeader) (cache : ArgvCache) :
    handleExit cache m current = (cache, none) :=
  if_pos (Ne.symm h)

theorem mem_ids_exit :
    id ∈ (host.step env d ⟨m, room, .exit current⟩).ids ↔ id ≠ current.pid ∧ id ∈ host.ids := by
  rw [Host.ids, Host.ids, Host.step, tasksAfter]
  simp only [mem_map, mem_filter, decide_eq_true_eq]
  constructor
  · rintro ⟨task, ⟨hmem, hne⟩, rfl⟩
    exact ⟨hne, task, hmem, rfl⟩
  · rintro ⟨hne, task, hmem, rfl⟩
    exact ⟨task, ⟨hmem, hne⟩, rfl⟩

theorem onlyLive_unreported_iff (h : OnlyLive host)
    (htree : (host.step env d ⟨m, room, .exit current⟩).tree = host.tree) :
    OnlyLive (host.step env d ⟨m, room, .exit current⟩) ↔ current.pid ∉ host.tree.procs := by
  rw [OnlyLive, htree]
  constructor
  · intro hlive hmem
    exact (mem_ids_exit.mp (hlive _ hmem)).1 rfl
  · intro hmem id hid
    exact mem_ids_exit.mpr ⟨fun heq => hmem (heq ▸ hid), h id hid⟩

theorem onlyLive_reported (h : OnlyLive host) (hleader : current.IsLeader) :
    OnlyLive (host.step env d ⟨m, true, .exit current⟩) := by
  have htree : (host.step env d ⟨m, true, .exit current⟩).tree = observe env d host.tree _ :=
    tree_step_of_emitted (handleExit_of_leader hleader host.cache) rfl
  intro id hid
  rw [htree, mem_observe_of_exit rfl] at hid
  refine mem_ids_exit.mpr ⟨fun heq => hid.1 ?_, h id hid.2⟩
  exact hleader.symm.trans heq.symm

theorem onlyLive_exit_iff (h : OnlyLive host) :
    OnlyLive (host.step env d ⟨m, room, .exit current⟩) ↔
      (current.pid ∈ host.tree.procs → current.IsLeader ∧ room = true) := by
  by_cases hreport : current.IsLeader ∧ room = true
  · obtain ⟨hleader, rfl⟩ := hreport
    exact iff_of_true (onlyLive_reported h hleader) fun _ => ⟨hleader, rfl⟩
  · have hsilent : (sense host.cache m (.exit current)).2 = none ∨ room = false := by
      rcases not_and_or.mp hreport with hthread | hroom
      · exact Or.inl (congrArg Prod.snd (handleExit_of_thread hthread host.cache))
      · exact Or.inr (Bool.eq_false_iff.mpr hroom)
    rw [onlyLive_unreported_iff h (tree_step_of_silent hsilent)]
    exact ⟨fun hnot hmem => absurd hmem hnot, fun himp hmem => hreport (himp hmem)⟩

theorem onlyLive_other (h : OnlyLive host) (hpassive : Passive e) :
    OnlyLive (host.step env d ⟨m, room, .other e⟩) := by
  have htree : (host.step env d ⟨m, room, .other e⟩).tree = host.tree := by
    cases room with
    | false => exact tree_step_of_silent (Or.inr rfl)
    | true => exact (tree_step_of_emitted rfl rfl).trans (observe_of_passive hpassive)
  exact onlyLive_of_same_tree h htree (List.Subset.refl host.ids)

end

theorem onlyLive_step_iff (h : OnlyLive host) (hp : Possible host o) :
    OnlyLive (host.step env d o) ↔ Accounted host o := by
  obtain ⟨m, room, happening⟩ := o
  cases happening with
  | fork parent child => exact iff_of_true (onlyLive_fork h parent child) trivial
  | execve current argv =>
    have htree : (host.step env d ⟨m, room, .execve current argv⟩).tree = host.tree :=
      tree_step_of_silent (Or.inl rfl)
    exact iff_of_true (onlyLive_of_same_tree h htree (List.Subset.refl host.ids)) trivial
  | exec current filename => exact iff_of_true (onlyLive_exec h hp.1 hp.2 filename) trivial
  | check object current filename => exact onlyLive_check_iff h object filename
  | exit => exact onlyLive_exit_iff h
  | other => exact iff_of_true (onlyLive_other h hp) trivial

end

/-! ## Whole histories -/

theorem OnlyLive.size_le {host : Host} (h : OnlyLive host) :
    host.tree.procs.size ≤ host.tasks.length := by
  have hsub : host.tree.procs.keys ⊆ host.ids := fun id hid => h id (Std.ExtTreeMap.mem_keys.mp hid)
  have hle := (host.tree.procs.nodup_keys.subperm hsub).length_le
  rwa [Std.ExtTreeMap.length_keys, Host.ids, length_map] at hle

def leader : Task := { pid := 100, tgid := 100 }

def thread (pid : UInt32) : Task := { pid := pid, tgid := 100, parentTgid := 1 }

/-- It forks a process, which executes a program and ends. -/
def forksAndRuns : List Occurrence :=
  [⟨{ now := 1 }, true, .fork leader { pid := 200, tgid := 200 }⟩,
   ⟨{ now := 2 }, true, .exec { pid := 200, tgid := 200 } (Go.ascii "/bin/ls")⟩,
   ⟨{ now := 3 }, true, .exit { pid := 200, tgid := 200 }⟩]

end ArgusEdr.Sensor
