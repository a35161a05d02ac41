import ArgusEdr.Server.Delivery
import ArgusEdr.Server.IdentityTheorems
import ArgusEdr.Server.StoreRefinement

/-!
# Which commands arrive

`ledger_step`: whatever happens, the commands accepted for an agent are those in its queue and those
its calls have taken off it, be they in flight, received or lost. So no command is received twice,
and none is missing exactly as long as no response with commands in it is lost
(`commands_accounted_iff`).
-/

namespace ArgusEdr

/-! ## Agents under their ids -/

namespace Store

/-- Every agent is found under its own id. -/
def Keyed (s : Store) : Prop := ∀ k a, s.get k = some a → a.id = k

theorem keyed_sqlite (q : SQLite) : Keyed (.sqlite q) := fun _ _ h => Table.key_of_find h

theorem keyed_new (b : Backend) : Keyed (new b) := by
  intro k a h
  rw [get_new] at h
  cases h

variable {s : Store}

theorem keyed_enroll (h : s.Keyed) (agent : Agent) : (s.enroll agent).Keyed := by
  cases s with
  | memory m =>
    intro k a ha
    have hget : (m.enroll agent).get k = some a := ha
    rw [Memory.get_enroll] at hget
    split_ifs at hget with hk
    · cases hget
      exact hk
    · exact h k a hget
  | sqlite => exact keyed_sqlite _

theorem Keyed.of_ids {t : Store} (h : s.Keyed)
    (hids : ∀ k, (t.get k).map Agent.id = (s.get k).map Agent.id) : t.Keyed := by
  intro k a ha
  have hid := hids k
  rw [ha, Option.map_some, eq_comm, Option.map_eq_some_iff] at hid
  obtain ⟨b, hb, hba⟩ := hid
  rw [← hba]
  exact h k b hb

theorem keyed_setPendingCert (h : s.Keyed) (agentID fingerprint : String) :
    (s.setPendingCert agentID fingerprint).1.Keyed := by
  refine h.of_ids fun k => ?_
  rw [get_setPendingCert]
  split_ifs
  · rw [Option.map_map]
    rfl
  · rfl

theorem keyed_promoteCert (h : s.Keyed) (agentID fingerprint : String) :
    (s.promoteCert agentID fingerprint).1.Keyed := by
  refine h.of_ids fun k => ?_
  rw [get_promoteCert]
  split_ifs
  · rw [Option.map_map]
    exact congrArg (fun f => (s.get k).map f) (funext fun a => Fleet.presented_id a fingerprint)
  · rfl

theorem keyed_heartbeat (h : s.Keyed) (agentID : String) (now : Model.Time) (stats : Stats) :
    (s.heartbeat agentID now stats).1.Keyed := by
  refine h.of_ids fun k => ?_
  rcases get_heartbeat s agentID k now stats with hget | ⟨-, hget⟩
  · rw [hget]
  · rw [hget, Option.map_map]
    rfl

theorem id_of_heartbeat (h : s.Keyed) {agentID : String} {now : Model.Time} {stats : Stats}
    {a : Agent} (ha : (s.heartbeat agentID now stats).2 = some a) : a.id = agentID := by
  cases s with
  | memory m =>
    have hbeat : (m.heartbeat agentID now stats).2 = some a := ha
    unfold Memory.heartbeat at hbeat
    cases hget : m.get agentID with
    | none => simp [hget] at hbeat
    | some b =>
      simp only [hget, Option.some.injEq] at hbeat
      rw [← hbeat]
      exact h agentID b hget
  | sqlite q =>
    have hbeat : (q.heartbeat agentID now stats).2 = some a := ha
    unfold SQLite.heartbeat at hbeat
    split at hbeat
    · cases hbeat
    · dsimp only at hbeat
      split at hbeat
      · cases hbeat
      · exact Table.key_of_find hbeat

end Store

namespace Delivery

open Runs (run AllSteps)
open Store (Stats Command Backend)

/-! ## What a step does to the queues -/

theorem keyed_identity {s : Identity.Service} (h : s.store.Keyed) (e : Identity.Event) :
    (Identity.step s e).store.Keyed := by
  cases e with
  | enroll =>
    simp only [Identity.step, Identity.enroll]
    split_ifs
    · exact h
    · exact h
    · exact Store.keyed_enroll h _
  | setPendingCert agentID fingerprint => exact Store.keyed_setPendingCert h agentID fingerprint
  | get => exact h
  | promote n =>
    simp only [Identity.step]
    rcases Identity.promote_cases s n with hstore | ⟨r, b, -, -, hstore⟩
    · rw [hstore]
      exact h
    · rw [hstore]
      exact Store.keyed_promoteCert h r.agentID r.fingerprint
  | heartbeat agentID now stats => exact Store.keyed_heartbeat h agentID now stats

theorem queue_identity (s : Identity.Service) (e : Identity.Event) (k : String) :
    (Identity.step s e).store.queue k = s.store.queue k := by
  cases e with
  | enroll =>
    simp only [Identity.step, Identity.enroll]
    split_ifs
    · rfl
    · rfl
    · exact Store.queue_enroll s.store _ k
  | setPendingCert agentID fingerprint =>
    exact Store.queue_setPendingCert s.store agentID fingerprint k
  | get => rfl
  | promote n =>
    simp only [Identity.step]
    rcases Identity.promote_cases s n with hstore | ⟨r, b, -, -, hstore⟩
    · rw [hstore]
    · rw [hstore]
      exact Store.queue_promoteCert s.store r.agentID r.fingerprint k
  | heartbeat agentID now stats => exact Store.queue_heartbeat s.store agentID now stats k

/-! ## The ledger -/

def Call.taken (call : Call) : List Command := call.inFlight ++ call.received ++ call.lost

/-- The part of it that belongs to an agent. -/
def Call.share (agentID : String) (call : Call) : Multiset Command :=
  if call.agentID = agentID then (call.taken : Multiset Command) else 0

def Call.DrainsOwn (call : Call) : Prop := ∀ id, call.stage = .draining id → id = call.agentID

/-- Every agent is found under its id, calls drain the queues of their agents, and the commands
accepted are those queued and those taken. -/
structure Ledger (w : World) : Prop where
  keyed : w.control.identity.store.Keyed
  drainsOwn : ∀ call ∈ w.calls, call.DrainsOwn
  balance : ∀ agentID, w.control.enqueuedFor agentID =
    w.control.queued agentID + Pool.total (Call.share agentID) w.calls

variable {call : Call} {c : Control} {move : Move}

theorem drainsOwn_of_ne (h : ∀ id, call.stage ≠ .draining id) : call.DrainsOwn :=
  fun id hid => absurd hid (h id)

theorem serve_own {now : Model.Time} (hc : c.identity.store.Keyed) (hcall : call.DrainsOwn) :
    (serve now c call).1.identity.store.Keyed ∧ (serve now c call).2.DrainsOwn := by
  unfold serve
  split
  · exact ⟨keyed_identity hc (.get _ _), drainsOwn_of_ne fun id h => by cases h⟩
  · split
    · exact ⟨hc, drainsOwn_of_ne fun id h => by cases h⟩
    · exact ⟨hc, drainsOwn_of_ne fun id h => by cases h⟩
    all_goals exact ⟨hc, hcall⟩
  · have hkeyed := Store.keyed_heartbeat hc call.agentID now call.stats
    cases hbeat : c.identity.store.heartbeat call.agentID now call.stats with
    | mk store found =>
      rw [hbeat] at hkeyed
      cases found with
      | none => exact ⟨hkeyed, drainsOwn_of_ne fun id h => by cases h⟩
      | some =>
        refine ⟨hkeyed, ?_⟩
        intro id hid
        cases hid
        exact Store.id_of_heartbeat hc (congrArg Prod.snd hbeat)
  · refine ⟨hc.of_ids fun k => ?_, drainsOwn_of_ne fun id h => by cases h⟩
    exact congrArg (Option.map Store.Agent.id) (Store.get_drainCommands _ _ k)
  · exact ⟨hc, drainsOwn_of_ne fun id h => by cases h⟩
  all_goals exact ⟨hc, hcall⟩

theorem advance_own (hc : c.identity.store.Keyed) (hcall : call.DrainsOwn) :
    (advance move c call).1.identity.store.Keyed ∧ (advance move c call).2.DrainsOwn := by
  cases move with
  | serve => exact serve_own hc hcall
  | deliver =>
    simp only [advance]
    split
    · exact ⟨hc, drainsOwn_of_ne fun id h => by cases h⟩
    all_goals exact ⟨hc, hcall⟩
  | lose =>
    simp only [advance]
    split
    · exact ⟨hc, drainsOwn_of_ne fun id h => by cases h⟩
    · exact ⟨hc, drainsOwn_of_ne fun id h => by cases h⟩
    all_goals exact ⟨hc, hcall⟩

theorem advance_enqueued (move : Move) (c : Control) (call : Call) :
    (advance move c call).1.enqueued = c.enqueued := by
  cases move with
  | serve =>
    simp only [advance, serve]
    split
    · rfl
    · split <;> rfl
    · split <;> rfl
    all_goals rfl
  | deliver | lose => simp only [advance]; split <;> rfl

theorem serve_conserves (now : Model.Time) (c : Control) (hcall : call.DrainsOwn)
    (agentID : String) :
    (serve now c call).1.queued agentID + (serve now c call).2.share agentID =
      c.queued agentID + call.share agentID := by
  obtain ⟨caller, fingerprint, stats, stage⟩ := call
  cases stage with
  | requested => rfl
  | checking =>
    simp only [serve]
    split <;> rfl
  | beating =>
    have hqueue := Store.queue_heartbeat c.identity.store caller now stats agentID
    simp only [serve]
    cases hbeat : c.identity.store.heartbeat caller now stats with
    | mk store found =>
      rw [hbeat] at hqueue
      have hqueued : ((store.queue agentID : List Command) : Multiset Command) =
          c.queued agentID := congrArg _ hqueue
      cases found with
      | none | some => exact congrArg (· + _) hqueued
  | draining id =>
    obtain rfl : id = caller := hcall id rfl
    have hqueue := Store.queue_drainCommands c.identity.store id agentID
    show (((c.identity.store.drainCommands id).1.queue agentID : List Command) : Multiset Command) +
        (if id = agentID then
          (((c.identity.store.drainCommands id).2 ++ [] ++ [] : List Command) : Multiset Command)
        else 0) = c.queued agentID + (if id = agentID then ((([] ++ [] ++ []) : List Command) : Multiset Command) else 0)
    rw [hqueue]
    split_ifs with hid
    · subst hid
      simp [Control.queued, Store.queue]
    · rfl
  | answering | responding | received | lost | refused => rfl

theorem advance_conserves (move : Move) (c : Control) (hcall : call.DrainsOwn) (agentID : String) :
    (advance move c call).1.queued agentID + (advance move c call).2.share agentID =
      c.queued agentID + call.share agentID := by
  cases move with
  | serve now => exact serve_conserves now c hcall agentID
  | deliver | lose =>
    obtain ⟨caller, fingerprint, stats, stage⟩ := call
    cases stage with
    | responding =>
      simp [advance, Call.share, Call.taken, Call.inFlight, Call.received, Call.lost]
    | _ => rfl

theorem start_ledger (backend : Backend) (token version : String) :
    Ledger (start backend token version) where
  keyed := Store.keyed_new backend
  drainsOwn := fun call hcall => by cases hcall
  balance := by
    intro agentID
    show (0 : Multiset Command) = ((Store.new backend).queue agentID : Multiset Command) + 0
    rw [Store.queue_new]
    rfl

theorem enqueuedFor_enqueue (c : Control) (target : String) (cmd : Command) (agentID : String) :
    (enqueue c target cmd).enqueuedFor agentID =
      if target = agentID ∧ (c.identity.store.get target).isSome then
        c.enqueuedFor agentID + {cmd}
      else c.enqueuedFor agentID := by
  have henqueued : (enqueue c target cmd).enqueued =
      if (c.identity.store.get target).isSome then c.enqueued ++ [(target, cmd)]
      else c.enqueued := by
    rw [← c.identity.store.enqueueCommand_snd target cmd]
    rfl
  rw [Control.enqueuedFor, henqueued]
  by_cases hknown : (c.identity.store.get target).isSome
  · by_cases htarget : target = agentID
    · rw [if_pos hknown, if_pos ⟨htarget, hknown⟩]
      simp [Control.enqueuedFor, htarget, ← Multiset.coe_add]
    · rw [if_pos hknown, if_neg fun h => htarget h.1]
      simp [Control.enqueuedFor, htarget]
  · rw [if_neg hknown, if_neg fun h => hknown h.2]
    rfl

theorem enqueue_balance (c : Control) (target : String) (cmd : Command) (agentID : String)
    (held : Multiset Command) (h : c.enqueuedFor agentID = c.queued agentID + held) :
    (enqueue c target cmd).enqueuedFor agentID = (enqueue c target cmd).queued agentID + held := by
  have hqueue : (enqueue c target cmd).queued agentID =
      if target = agentID ∧ (c.identity.store.get target).isSome then c.queued agentID + {cmd}
      else c.queued agentID := by
    refine (congrArg _ (Store.queue_enqueueCommand c.identity.store target agentID cmd)).trans ?_
    split_ifs <;> rfl
  rw [hqueue, enqueuedFor_enqueue, h]
  split_ifs
  · exact add_right_comm _ _ _
  · rfl

theorem advanceAt_enqueued (move : Move) (c : Control) (calls : List Call) (n : ℕ) :
    (Pool.advanceAt (advance move) c calls n).1.enqueued = c.enqueued := by
  unfold Pool.advanceAt
  split
  · rfl
  · exact advance_enqueued move c _

theorem step_ledger (w : World) (e : Event) (hw : Ledger w) : Ledger (step w e) := by
  cases e with
  | identity e =>
    refine ⟨keyed_identity hw.keyed e, hw.drainsOwn, fun agentID => ?_⟩
    refine (hw.balance agentID).trans ?_
    exact congrArg (fun q : List Command => (q : Multiset Command) + _)
      (queue_identity w.control.identity e agentID).symm
  | enqueue target cmd =>
    refine ⟨?_, hw.drainsOwn, fun agentID => enqueue_balance _ target cmd _ _ (hw.balance agentID)⟩
    refine hw.keyed.of_ids fun k => ?_
    exact congrArg (Option.map Store.Agent.id) (Store.get_enqueueCommand _ target k cmd)
  | reload => exact ⟨hw.keyed, hw.drainsOwn, hw.balance⟩
  | send =>
    refine ⟨hw.keyed, Pool.forall_mem_spawn hw.drainsOwn (drainsOwn_of_ne fun id h => by cases h),
      fun agentID => ?_⟩
    simp only [step, Pool.total_concat]
    rw [← add_assoc, ← hw.balance agentID]
    simp [Call.share, Call.taken, Call.inFlight, Call.received, Call.lost]
  | call n move =>
    have hown : (Pool.advanceAt (advance move) w.control w.calls n).1.identity.store.Keyed ∧
        ∀ call ∈ (Pool.advanceAt (advance move) w.control w.calls n).2, call.DrainsOwn :=
      Pool.advanceAt_invariant (I := fun c : Control => c.identity.store.Keyed)
        (J := Call.DrainsOwn) hw.keyed hw.drainsOwn fun call _ hcall => advance_own hw.keyed hcall
    refine ⟨hown.1, hown.2, fun agentID => ?_⟩
    have hkeep : (Pool.advanceAt (advance move) w.control w.calls n).1.queued agentID +
        Pool.total (Call.share agentID) (Pool.advanceAt (advance move) w.control w.calls n).2 =
          w.control.queued agentID + Pool.total (Call.share agentID) w.calls :=
      Pool.advanceAt_conserves (h := fun c : Control => c.queued agentID) fun call hcall =>
        advance_conserves move w.control (hw.drainsOwn call (List.mem_of_getElem? hcall)) agentID
    refine Eq.trans ?_ ((hw.balance agentID).trans hkeep.symm)
    simp only [step, Control.enqueuedFor, advanceAt_enqueued]

/-! ## Lost commands -/

theorem total_share (w : World) (agentID : String) :
    Pool.total (Call.share agentID) w.calls =
      w.held Call.inFlight agentID + w.held Call.received agentID + w.held Call.lost agentID := by
  simp only [World.held, ← Pool.total_add]
  refine congrArg (fun f => Pool.total f w.calls) (funext fun call => ?_)
  unfold Call.share Call.taken
  split_ifs <;> rfl

theorem held_eq_zero_iff (w : World) (part : Call → List Command) :
    (∀ agentID, w.held part agentID = 0) ↔ ∀ call ∈ w.calls, part call = [] := by
  simp only [World.held, Pool.total_eq_zero_iff, ite_eq_right_iff, Multiset.coe_eq_zero]
  constructor
  · intro h call hcall
    exact h call.agentID call hcall rfl
  · intro h agentID call hcall _
    exact h call hcall

theorem accounted_iff {w : World} (hw : Ledger w) :
    Accounted w ↔ ∀ call ∈ w.calls, call.lost = [] := by
  rw [← held_eq_zero_iff]
  refine forall_congr' fun agentID => ?_
  rw [hw.balance agentID, total_share, ← add_assoc, ← add_assoc]
  exact add_eq_left

theorem lost_advance_of_ne (hmove : move ≠ .lose) (h : call.lost = []) :
    (advance move c call).2.lost = [] := by
  obtain ⟨caller, fingerprint, stats, stage⟩ := call
  cases move with
  | serve =>
    cases stage with
    | checking | beating => simp only [advance, serve]; split <;> rfl
    | lost => exact h
    | _ => rfl
  | deliver =>
    cases stage with
    | lost => exact h
    | _ => rfl
  | lose => exact absurd rfl hmove

theorem lost_lose_iff (h : call.lost = []) :
    (advance .lose c call).2.lost = [] ↔
      ∀ drained message, call.stage = .responding drained message → drained = [] := by
  obtain ⟨caller, fingerprint, stats, stage⟩ := call
  cases stage with
  | responding => simp [advance, Call.lost]
  | lost => exact iff_of_true h fun _ _ hstage => by cases hstage
  | _ => exact iff_of_true rfl fun _ _ hstage => by cases hstage

theorem lost_step {w : World} (e : Event) (hw : ∀ call ∈ w.calls, call.lost = []) :
    (∀ call ∈ (step w e).calls, call.lost = []) ↔ LosesNothing w e := by
  cases e with
  | identity | enqueue | reload => exact iff_of_true hw trivial
  | send => exact iff_of_true (Pool.forall_mem_spawn hw rfl) trivial
  | call n move =>
    refine (Pool.forall_mem_advanceAt_iff hw).trans ?_
    have hmem : ∀ call, w.calls[n]? = some call → call.lost = [] :=
      fun call hcall => hw call (List.mem_of_getElem? hcall)
    cases move with
    | serve | deliver =>
      exact iff_of_true (fun call hcall => lost_advance_of_ne (by simp) (hmem call hcall)) trivial
    | lose =>
      exact forall_congr' fun call => forall_congr' fun hcall => lost_lose_iff (hmem call hcall)

/-- Over every run of an operator, agents and a network that loses messages: the commands accepted
for an agent are at every moment in its queue, in flight to it or received by it, each once, exactly
as long as no response that carries commands is lost. In any case none is received more often than it
was accepted. -/
theorem commands_accounted_iff (backend : Backend) (token version : String) (es : List Event) :
    (AllSteps step (fun w e => Accounted (step w e)) (start backend token version) es ↔
        AllSteps step LosesNothing (start backend token version) es) ∧
      ∀ agentID, (run step (start backend token version) es).held Call.received agentID ≤
        (run step (start backend token version) es).control.enqueuedFor agentID := by
  constructor
  · refine AllSteps.congr_while (I := fun w => Ledger w ∧ ∀ call ∈ w.calls, call.lost = [])
      ⟨start_ledger backend token version, fun call hcall => by cases hcall⟩ ?_ ?_
    · rintro w e ⟨hw, hlost⟩
      rw [accounted_iff (step_ledger w e hw), lost_step e hlost]
    · rintro w e ⟨hw, hlost⟩ he
      exact ⟨step_ledger w e hw, (lost_step e hlost).mpr he⟩
  · intro agentID
    have hledger : Ledger (run step (start backend token version) es) :=
      Runs.run_invariant (start_ledger backend token version) step_ledger es
    rw [hledger.balance agentID, total_share, add_right_comm, ← add_assoc]
    exact Multiset.le_add_left _ _

/-- An agent enrolls, an operator queues a command for it, and the agent's next heartbeat is
answered. -/
def answered : List Event :=
  [.identity (.enroll "A" 1 { hostname := "web-01", peerFingerprint := "cert" }),
   .enqueue "A" { kind := "KILL_PROCESS", argument := "4123" },
   .send "A" "cert" {}, .call 0 (.serve 2), .call 0 (.serve 2), .call 0 (.serve 2),
   .call 0 (.serve 2), .call 0 (.serve 2)]

/-- The response is lost: with either store, the command is neither queued nor in flight nor
received. -/
theorem lost_response_loses_command :
    ((run step (start .memory "" "") (answered ++ [.call 0 .lose])).control.enqueuedFor "A" =
        {{ kind := "KILL_PROCESS", argument := "4123" }} ∧
      (run step (start .memory "" "") (answered ++ [.call 0 .lose])).control.queued "A" = 0 ∧
      (run step (start .memory "" "") (answered ++ [.call 0 .lose])).held Call.inFlight "A" = 0 ∧
      (run step (start .memory "" "") (answered ++ [.call 0 .lose])).held Call.received "A" = 0) ∧
    ((run step (start .sqlite "" "") (answered ++ [.call 0 .lose])).control.enqueuedFor "A" =
        {{ kind := "KILL_PROCESS", argument := "4123" }} ∧
      (run step (start .sqlite "" "") (answered ++ [.call 0 .lose])).control.queued "A" = 0 ∧
      (run step (start .sqlite "" "") (answered ++ [.call 0 .lose])).held Call.inFlight "A" = 0 ∧
      (run step (start .sqlite "" "") (answered ++ [.call 0 .lose])).held Call.received "A" = 0) := by
  decide +kernel

end Delivery
end ArgusEdr
