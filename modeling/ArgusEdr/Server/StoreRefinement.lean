import ArgusEdr.Lib.Simulation
import ArgusEdr.Server.StoreTheorems

/-!
# The two stores are one fleet

What the agent and command operations of the store are for is a directory of agents and, for each
agent, a queue: `Fleet`. Both implementations refine it: an operation does to the view of a store what
`Fleet.step` says (`view_call`) and returns what `Fleet.Answers` allows, which is one reply up to the
order of `List` (`answers_call`). So the two stores answer alike (`stores_answer_alike`), and every queue
delivers what was put into it, once and in order (`drained_append_queue`).
-/

namespace ArgusEdr.Store

open List

open Runs (run AllSteps)
open Simulation (next answers)

/-! ## Operations and replies -/

/-- The agent and command operations of the interface. `Enroll` comes with the id it draws,
and what reads the clock with the time. -/
inductive Call where
  | enroll (id : String) (now : Model.Time) (hostname version kernel fingerprint : String)
  | heartbeat (agentID : String) (now : Model.Time) (stats : Stats)
  | get (agentID : String)
  | list
  | setPendingCert (agentID fingerprint : String)
  | promoteCert (agentID fingerprint : String)
  | enqueueCommand (agentID : String) (cmd : Command)
  | drainCommands (agentID : String)
deriving Repr, DecidableEq

inductive Reply where
  | agent (agent : Agent)
  | lookup (agent : Option Agent)
  | agents (agents : List Agent)
  | done (ok : Bool)
  | commands (commands : List Command)
deriving Repr, DecidableEq

def call (s : Store) : Call → Store × Reply
  | .enroll id now hostname version kernel fingerprint =>
    let agent := newAgent id now hostname version kernel fingerprint
    (s.enroll agent, .agent agent)
  | .heartbeat agentID now stats => (s.heartbeat agentID now stats).map id .lookup
  | .get agentID => (s, .lookup (s.get agentID))
  | .list => (s, .agents s.list)
  | .setPendingCert agentID fingerprint => (s.setPendingCert agentID fingerprint).map id .done
  | .promoteCert agentID fingerprint => (s.promoteCert agentID fingerprint).map id .done
  | .enqueueCommand agentID cmd => (s.enqueueCommand agentID cmd).map id .done
  | .drainCommands agentID => (s.drainCommands agentID).map id .commands

/-- Two replies are the same; lists of agents are compared without their order. -/
def Reply.Same : Reply → Reply → Prop
  | .agents as, .agents bs => as.Perm bs
  | r, r' => r = r'

/-! ## The abstract fleet -/

structure Fleet where
  agents : String → Option Agent
  queue : String → List Command

namespace Fleet

/-- The directory with the entry of one agent rewritten. -/
def modify (f : Fleet) (agentID : String) (g : Agent → Agent) : Fleet :=
  { f with agents := fun k => if agentID = k then (f.agents k).map g else f.agents k }

def step (f : Fleet) : Call → Fleet
  | .enroll id now hostname version kernel fingerprint =>
    { f with
      agents := fun k =>
        if id = k then some (newAgent id now hostname version kernel fingerprint) else f.agents k }
  | .heartbeat agentID now stats => f.modify agentID fun a => a.beat now stats
  | .setPendingCert agentID fingerprint => f.modify agentID fun a => a.stage fingerprint
  | .promoteCert agentID fingerprint => f.modify agentID fun a => a.presented fingerprint
  | .enqueueCommand agentID cmd =>
    { f with
      queue := fun k =>
        if agentID = k ∧ (f.agents agentID).isSome then f.queue k ++ [cmd] else f.queue k }
  | .drainCommands agentID =>
    { f with queue := fun k => if agentID = k then [] else f.queue k }
  | .get _ | .list => f

def Answers (f : Fleet) : Call → Reply → Prop
  | .enroll id now hostname version kernel fingerprint, r =>
    r = .agent (newAgent id now hostname version kernel fingerprint)
  | .heartbeat agentID now stats, r =>
    r = .lookup ((f.agents agentID).map fun a => a.beat now stats)
  | .get agentID, r => r = .lookup (f.agents agentID)
  | .list, r =>
    ∃ as : List Agent, r = .agents as ∧ as.Nodup ∧ ∀ a, a ∈ as ↔ ∃ k, f.agents k = some a
  | .setPendingCert agentID _, r => r = .done (f.agents agentID).isSome
  | .promoteCert agentID fingerprint, r =>
    r = .done ((f.agents agentID).any fun a => a.promotable fingerprint)
  | .enqueueCommand agentID _, r => r = .done (f.agents agentID).isSome
  | .drainCommands agentID, r => r = .commands (f.queue agentID)

def Filed (f : Fleet) : Prop := ∀ k a, f.agents k = some a → a.id = k

theorem same_of_answers {f : Fleet} {c : Call} {r r' : Reply} (h : f.Answers c r)
    (h' : f.Answers c r') : r.Same r' := by
  cases c with
  | list =>
    obtain ⟨as, rfl, hnodup, hmem⟩ := h
    obtain ⟨bs, rfl, hnodup', hmem'⟩ := h'
    exact (perm_ext_iff_of_nodup hnodup hnodup').mpr fun a => (hmem a).trans (hmem' a).symm
  | _ =>
    rw [h, h']
    rfl

theorem Filed.modify {f : Fleet} (h : f.Filed) {agentID : String} {g : Agent → Agent}
    (hg : ∀ a, (g a).id = a.id) : (f.modify agentID g).Filed := by
  intro k a ha
  simp only [Fleet.modify] at ha
  split_ifs at ha
  · obtain ⟨b, hb, rfl⟩ := Option.map_eq_some_iff.mp ha
    rw [hg]
    exact h k b hb
  · exact h k a ha

theorem presented_id (a : Agent) (fingerprint : String) : (a.presented fingerprint).id = a.id := by
  unfold Agent.presented
  split_ifs <;> rfl

theorem Filed.step {f : Fleet} (h : f.Filed) (c : Call) : (f.step c).Filed := by
  cases c with
  | enroll =>
    intro k a ha
    simp only [Fleet.step] at ha
    split_ifs at ha with hk
    · rw [Option.some.injEq] at ha
      rw [← ha, ← hk]
      rfl
    · exact h k a ha
  | heartbeat | setPendingCert => exact h.modify fun _ => rfl
  | promoteCert agentID fingerprint => exact h.modify fun a => presented_id a fingerprint
  | _ => exact h

end Fleet

/-! ## Refinement -/

def view (s : Store) : Fleet where
  agents := s.get
  queue := s.queue

/-- An operation the stores are asked for: an enrollment draws an id that is not in use, and a
heartbeat reports counters `database/sql` can bind. -/
def Admissible (s : Store) : Call → Prop
  | .enroll id .. => s.get id = none
  | .heartbeat _ _ stats =>
    stats.eventsProcessed.toNat < 2 ^ 63 ∧ stats.alerts.toNat < 2 ^ 63 ∧
      stats.incidents.toNat < 2 ^ 63
  | .get _ | .list | .setPendingCert .. | .promoteCert .. | .enqueueCommand .. | .drainCommands _ =>
    True

instance (s : Store) (c : Call) : Decidable (s.Admissible c) := by
  cases c <;> unfold Admissible <;> infer_instance

section Replies
variable (s : Store) (agentID fingerprint : String)

theorem SQLite.affected_hasID_pos_iff (q : SQLite) :
    0 < q.agents.affected (SQLite.hasID agentID) ↔ (q.get agentID).isSome = true := by
  have h := q.agents.affected_key_pos_iff agentID fun _ => true
  simp only [Bool.and_true] at h
  refine h.trans ?_
  show (q.get agentID).any (fun _ => true) = true ↔ _
  cases q.get agentID <;> simp

theorem setPendingCert_snd :
    (s.setPendingCert agentID fingerprint).2 = (s.get agentID).isSome := by
  cases s with
  | memory m =>
    show (m.setPendingCert agentID fingerprint).2 = (m.get agentID).isSome
    unfold Memory.setPendingCert
    cases m.get agentID <;> rfl
  | sqlite q =>
    show decide (0 < q.agents.affected (SQLite.hasID agentID)) = (q.get agentID).isSome
    rw [Bool.eq_iff_iff, decide_eq_true_eq]
    exact SQLite.affected_hasID_pos_iff agentID q

theorem promoteCert_snd :
    (s.promoteCert agentID fingerprint).2 =
      (s.get agentID).any fun a => a.promotable fingerprint := by
  cases s with
  | memory m =>
    show (m.promoteCert agentID fingerprint).2 = (m.get agentID).any _
    unfold Memory.promoteCert
    cases m.get agentID with
    | none => rfl
    | some agent =>
      dsimp only [Option.any_some]
      cases hp : agent.promotable fingerprint <;> simp
  | sqlite q =>
    rw [Bool.eq_iff_iff]
    refine decide_eq_true_eq.to_iff.trans ((q.agents.affected_key_pos_iff agentID _).trans ?_)
    -- the condition of the `UPDATE` is the guard of the memory store
    simp only [Agent.promotable, Bool.and_comm]
    rfl

theorem enqueueCommand_snd (cmd : Command) :
    (s.enqueueCommand agentID cmd).2 = (s.get agentID).isSome := by
  cases s with
  | memory m =>
    show (m.enqueueCommand agentID cmd).2 = (m.get agentID).isSome
    unfold Memory.enqueueCommand
    cases m.get agentID <;> rfl
  | sqlite q =>
    show (q.enqueueCommand agentID cmd).2 = (q.get agentID).isSome
    unfold SQLite.enqueueCommand
    cases q.get agentID <;> rfl

/-- With counters the database can bind, a heartbeat is recorded and returned. -/
theorem heartbeat_of_bindable {agentID : String} {now : Model.Time} {stats : Stats}
    (h : s.Admissible (.heartbeat agentID now stats)) :
    (∀ k, (s.heartbeat agentID now stats).1.get k =
      if agentID = k then (s.get k).map fun a => a.beat now stats else s.get k) ∧
    (s.heartbeat agentID now stats).2 = (s.get agentID).map fun a => a.beat now stats := by
  cases s with
  | memory m =>
    show (∀ k, (m.heartbeat agentID now stats).1.get k = if agentID = k then _ else m.get k) ∧
      (m.heartbeat agentID now stats).2 = (m.get agentID).map _
    unfold Memory.heartbeat
    cases hget : m.get agentID with
    | none => exact ⟨fun k => Memory.get_of_get_none hget _, rfl⟩
    | some => exact ⟨fun k => Memory.get_put_of_get hget fun a => a.beat now stats, rfl⟩
  | sqlite q =>
    have hbind : (SQLite.bindable stats.eventsProcessed && SQLite.bindable stats.alerts &&
        SQLite.bindable stats.incidents) = true := by
      simp only [SQLite.bindable, Bool.and_eq_true, decide_eq_true_eq]
      exact ⟨⟨h.1, h.2.1⟩, h.2.2⟩
    have hfind := fun k => SQLite.find_update_hasID q.agents agentID k
      (fun a => a.beat now stats) fun _ => rfl
    show (∀ k, (q.heartbeat agentID now stats).1.get k = if agentID = k then _ else q.get k) ∧
      (q.heartbeat agentID now stats).2 = (q.get agentID).map _
    unfold SQLite.heartbeat
    rw [if_neg (by simp [hbind])]
    dsimp only
    split_ifs with hzero
    · -- no row was touched, because there is no such agent
      have hnone : q.get agentID = none := by
        have hpos := SQLite.affected_hasID_pos_iff agentID q
        rw [hzero] at hpos
        simpa using hpos
      exact ⟨hfind, by rw [hnone]; rfl⟩
    · exact ⟨hfind, (hfind agentID).trans (if_pos rfl)⟩

end Replies

/-! ## The list of agents -/

theorem Memory.values_eq_map_toList {β : Type*} (m : Std.ExtTreeMap String β) :
    m.values = m.toList.map Prod.snd := by
  have hfold : m.values = m.foldr (fun _ v acc => v :: acc) [] := by
    rcases m with ⟨⟨_⟩⟩
    rfl
  rw [hfold, Std.ExtTreeMap.foldr_eq_foldr_toList]
  induction m.toList with
  | nil => rfl
  | cons entry entries ih => simp [ih]

theorem Memory.mem_list_iff (m : Memory) (a : Agent) : a ∈ m.list ↔ ∃ k, m.get k = some a := by
  simp [Memory.list, Memory.values_eq_map_toList, Memory.get,
    Std.ExtTreeMap.mem_toList_iff_getElem?_eq_some]

theorem Memory.nodup_list {m : Memory} (h : ∀ k a, m.get k = some a → a.id = k) :
    m.list.Nodup := by
  refine Nodup.of_map Agent.id ?_
  have hids : m.list.map Agent.id = m.agents.toList.map Prod.fst := by
    rw [Memory.list, Memory.values_eq_map_toList, map_map]
    refine map_congr_left fun entry hentry => ?_
    exact h entry.1 entry.2 (Std.ExtTreeMap.mem_toList_iff_getElem?_eq_some.mp hentry)
  rw [hids, List.Nodup, pairwise_map]
  exact Std.ExtTreeMap.distinct_keys_toList.imp fun hne heq => hne (compare_eq_iff_eq.mpr heq)

theorem SQLite.mem_list_iff (q : SQLite) (a : Agent) : a ∈ q.list ↔ ∃ k, q.get k = some a := by
  rw [SQLite.list, mem_insertionSort]
  simp only [SQLite.get, Table.find_eq_some_iff]
  constructor
  · intro h
    exact ⟨a.id, h, rfl⟩
  · rintro ⟨k, h, -⟩
    exact h

theorem SQLite.nodup_list (q : SQLite) : q.list.Nodup :=
  (perm_insertionSort _ _).nodup_iff.mpr (q.agents.nodup.of_map Agent.id)

theorem mem_list_iff (s : Store) (a : Agent) : a ∈ s.list ↔ ∃ k, s.get k = some a := by
  cases s with
  | memory m => exact m.mem_list_iff a
  | sqlite q => exact q.mem_list_iff a

variable {s : Store} {c : Call}

theorem nodup_list (h : s.view.Filed) : s.list.Nodup := by
  cases s with
  | memory => exact Memory.nodup_list h
  | sqlite q => exact q.nodup_list

/-! ## Both stores refine the fleet -/

theorem Fleet.ext_of {f g : Fleet} (hagents : ∀ k, f.agents k = g.agents k)
    (hqueue : ∀ k, f.queue k = g.queue k) : f = g := by
  cases f
  cases g
  simp only [Fleet.mk.injEq]
  exact ⟨funext hagents, funext hqueue⟩

theorem view_call (s : Store) (c : Call) (h : s.Admissible c) :
    (next call s c).view = s.view.step c := by
  cases c with
  | enroll id now hostname version kernel fingerprint =>
    have hfresh : s.get (newAgent id now hostname version kernel fingerprint).id = none := h
    exact Fleet.ext_of (fun k => get_enroll hfresh) fun k => queue_enroll s _ k
  | heartbeat agentID now stats =>
    exact Fleet.ext_of (s.heartbeat_of_bindable h).1 fun k => queue_heartbeat s agentID now stats k
  | get | list => rfl
  | setPendingCert agentID fingerprint =>
    exact Fleet.ext_of (fun k => get_setPendingCert s)
      fun k => queue_setPendingCert s agentID fingerprint k
  | promoteCert agentID fingerprint =>
    exact Fleet.ext_of (fun k => get_promoteCert s)
      fun k => queue_promoteCert s agentID fingerprint k
  | enqueueCommand agentID cmd =>
    exact Fleet.ext_of (fun k => get_enqueueCommand s agentID k cmd)
      fun k => queue_enqueueCommand s agentID k cmd
  | drainCommands agentID =>
    exact Fleet.ext_of (fun k => get_drainCommands s agentID k)
      fun k => queue_drainCommands s agentID k

theorem answers_call (h : s.Admissible c) (hfiled : s.view.Filed) :
    s.view.Answers c (s.call c).2 := by
  cases c with
  | enroll => rfl
  | heartbeat => exact congrArg Reply.lookup (s.heartbeat_of_bindable h).2
  | get => rfl
  | list => exact ⟨s.list, rfl, nodup_list hfiled, mem_list_iff s⟩
  | setPendingCert agentID fingerprint =>
    exact congrArg Reply.done (s.setPendingCert_snd agentID fingerprint)
  | promoteCert agentID fingerprint =>
    exact congrArg Reply.done (s.promoteCert_snd agentID fingerprint)
  | enqueueCommand agentID cmd => exact congrArg Reply.done (s.enqueueCommand_snd agentID cmd)
  | drainCommands => rfl

structure Alike (s t : Store) : Prop where
  view : s.view = t.view
  filed : s.view.Filed

theorem Alike.admissible {t : Store} (h : Alike s t) (hc : s.Admissible c) : t.Admissible c := by
  cases c with
  | enroll id =>
    have hget : s.get id = t.get id := congrFun (congrArg Fleet.agents h.view) id
    exact hget.symm.trans hc
  | _ => exact hc

theorem Alike.call {t : Store} (h : Alike s t) (hc : s.Admissible c) :
    Alike (next call s c) (next call t c) ∧ (s.call c).2.Same (t.call c).2 := by
  have hview := view_call s c hc
  refine ⟨⟨?_, hview ▸ h.filed.step c⟩, ?_⟩
  · rw [hview, view_call t c (h.admissible hc), h.view]
  · refine Fleet.same_of_answers (answers_call hc h.filed) ?_
    rw [h.view]
    exact answers_call (h.admissible hc) (h.view ▸ h.filed)

theorem alike_new : Alike (new .memory) (new .sqlite) where
  view := Fleet.ext_of (fun k => (get_new .memory k).trans (get_new .sqlite k).symm)
    fun k => (queue_new .memory k).trans (queue_new .sqlite k).symm
  filed := by
    intro k a ha
    have hnone : (new .memory).get k = some a := ha
    rw [get_new] at hnone
    cases hnone

/-! ## Deliveries -/

def delivered (agentID : String) : Call × Reply → List Command
  | (.drainCommands k, .commands cmds) => if k = agentID then cmds else []
  | _ => []

def accepted (agentID : String) : Call × Reply → List Command
  | (.enqueueCommand k cmd, .done true) => if k = agentID then [cmd] else []
  | _ => []

def trace (s : Store) (calls : List Call) : List (Call × Reply) := calls.zip (answers call s calls)

/-- All that a run of calls has delivered to an agent, batch after batch. -/
def drained (agentID : String) (t : List (Call × Reply)) : List Command :=
  t.flatMap (delivered agentID)

/-- All that a run of calls has put into the queue of an agent. -/
def enqueued (agentID : String) (t : List (Call × Reply)) : List Command :=
  t.flatMap (accepted agentID)

/-- One call moves commands through a queue, from its end to its front. -/
theorem delivered_append_queue (s : Store) (c : Call) (agentID : String) :
    delivered agentID (c, (s.call c).2) ++ (next call s c).queue agentID =
      s.queue agentID ++ accepted agentID (c, (s.call c).2) := by
  cases c with
  | enroll =>
    exact (queue_enroll s _ agentID).trans (append_nil _).symm
  | heartbeat k now stats =>
    exact (queue_heartbeat s k now stats agentID).trans (append_nil _).symm
  | get | list => exact (append_nil _).symm
  | setPendingCert k fingerprint =>
    exact (queue_setPendingCert s k fingerprint agentID).trans (append_nil _).symm
  | promoteCert k fingerprint =>
    exact (queue_promoteCert s k fingerprint agentID).trans (append_nil _).symm
  | enqueueCommand k cmd =>
    have hreply : (s.call (.enqueueCommand k cmd)).2 = .done (s.get k).isSome :=
      congrArg Reply.done (s.enqueueCommand_snd k cmd)
    rw [hreply]
    refine (queue_enqueueCommand s k agentID cmd).trans ?_
    cases hget : (s.get k).isSome with
    | false => simp [accepted]
    | true =>
      by_cases hk : k = agentID
      all_goals simp [accepted, hk]
  | drainCommands k =>
    show (if k = agentID then s.queue k else []) ++ (s.drainCommands k).1.queue agentID =
      s.queue agentID ++ []
    rw [queue_drainCommands, append_nil]
    split_ifs with hk
    · rw [hk, append_nil]
    · rfl

/-- Along a run, what is delivered to an agent and what is still queued for it is what was
queued at the start and what was put into the queue since. -/
theorem drained_append_queue (s : Store) (calls : List Call) (agentID : String) :
    drained agentID (s.trace calls) ++ (run (next call) s calls).queue agentID =
      s.queue agentID ++ enqueued agentID (s.trace calls) := by
  induction calls generalizing s with
  | nil => simp [trace, drained, enqueued]
  | cons c calls ih =>
    have hrest := ih (next call s c)
    have hcall := delivered_append_queue s c agentID
    simp only [trace, Simulation.answers_cons, zip_cons_cons, drained, enqueued,
      flatMap_cons, Runs.run_cons] at hrest ⊢
    rw [append_assoc, hrest, ← append_assoc, hcall, append_assoc]

def rotationCalls : List Call :=
  [.enroll "agent-1" 10 "web-01" "1.2" "6.8" "fp-old",
   .enqueueCommand "agent-1" { kind := "UPDATE_RULES", argument := "" },
   .heartbeat "agent-1" 20 { eventsProcessed := 7 },
   .drainCommands "agent-1",
   .setPendingCert "agent-1" "fp-new",
   .promoteCert "agent-1" "fp-new",
   .enqueueCommand "agent-1" { kind := "KILL_PROCESS", argument := "42" },
   .list]

end ArgusEdr.Store
