import ArgusEdr.Server.Store

/-!
# What the two stores have in common

Both implementations are a directory of agents and a queue of commands for each. The lemmas say what an
operation does to `get` and to `queue`, for either implementation: the directory is changed at one id
only, by `Agent.stage`, `Agent.promote` or `Agent.beat`, and a queue grows at its end by the commands
enqueued for its agent, until a drain empties it.
-/

namespace ArgusEdr.Store

open List

variable {k agentID fingerprint : String}

/-! ## The directory of agents -/

theorem get_new (b : Backend) (k : String) : (new b).get k = none := by
  cases b with
  | memory => simp [new, get, Memory.get]
  | sqlite => rfl

namespace Memory

theorem get_put (m : Memory) (agent : Agent) :
    (m.put agentID agent).get k = if agentID = k then some agent else m.get k := by
  simp [get, put, Std.ExtTreeMap.getElem?_insert]

theorem get_enroll (m : Memory) (agent : Agent) :
    (m.enroll agent).get k = if agent.id = k then some agent else m.get k :=
  get_put m agent

theorem get_put_of_get {m : Memory} {agent : Agent} (h : m.get agentID = some agent)
    (f : Agent → Agent) :
    (m.put agentID (f agent)).get k = if agentID = k then (m.get k).map f else m.get k := by
  rw [get_put]
  split_ifs with hk
  · rw [← hk, h]
    rfl
  · rfl

theorem get_of_get_none {m : Memory} (h : m.get agentID = none) (f : Agent → Agent) :
    m.get k = if agentID = k then (m.get k).map f else m.get k := by
  split_ifs with hk
  · rw [← hk, h]
    rfl
  · rfl

end Memory

namespace SQLite

theorem get_enroll {s : SQLite} {agent : Agent} (h : s.get agent.id = none) :
    (s.enroll agent).get k = if agent.id = k then some agent else s.get k := by
  obtain ⟨t, ht, -⟩ := Table.insert_eq_some_of_find_none agent h
  unfold enroll
  rw [ht]
  exact Table.find_insert ht k

theorem find_update_hasID (t : Table Agent.id) (agentID k : String) (f : Agent → Agent)
    (hf : ∀ a, (f a).id = a.id) :
    (t.update (hasID agentID) f hf).find k =
      if agentID = k then (t.find k).map f else t.find k := by
  have h := t.find_update_key agentID (fun _ => true) f hf k
  simp only [Bool.and_true] at h
  exact h

end SQLite

theorem get_enroll {s : Store} {agent : Agent} (h : s.get agent.id = none) :
    (s.enroll agent).get k = if agent.id = k then some agent else s.get k := by
  cases s with
  | memory m => exact m.get_enroll agent
  | sqlite => exact SQLite.get_enroll h

theorem get_setPendingCert (s : Store) :
    (s.setPendingCert agentID fingerprint).1.get k =
      if agentID = k then (s.get k).map fun a => a.stage fingerprint else s.get k := by
  cases s with
  | memory m =>
    show (m.setPendingCert agentID fingerprint).1.get k = if agentID = k then _ else m.get k
    unfold Memory.setPendingCert
    cases hget : m.get agentID with
    | none => exact Memory.get_of_get_none hget _
    | some => exact Memory.get_put_of_get hget fun a => a.stage fingerprint
  | sqlite q => exact SQLite.find_update_hasID q.agents agentID k (fun a => a.stage fingerprint) fun _ => rfl

def Agent.presented (a : Agent) (fingerprint : String) : Agent :=
  if a.promotable fingerprint then a.promote fingerprint else a

theorem Memory.get_promoteCert (m : Memory) :
    (m.promoteCert agentID fingerprint).1.get k =
      if agentID = k then (m.get k).map fun a => a.presented fingerprint else m.get k := by
  unfold promoteCert
  cases hget : m.get agentID with
  | none => exact get_of_get_none hget _
  | some =>
    dsimp only
    split_ifs with hp hk hk
    · rw [get_put, if_pos hk, ← hk, hget, Option.map_some, Agent.presented, if_pos hp]
    · rw [get_put, if_neg hk]
    · rw [← hk, hget, Option.map_some, Agent.presented, if_neg hp]
    · rfl

theorem SQLite.get_promoteCert (s : SQLite) :
    (s.promoteCert agentID fingerprint).1.get k =
      if agentID = k then (s.get k).map fun a => a.presented fingerprint else s.get k := by
  refine (s.agents.find_update_key agentID
    (fun a => decide (a.pendingCertFingerprint = fingerprint) &&
      decide (a.pendingCertFingerprint ≠ ""))
    (fun a => a.promote fingerprint) (fun _ => rfl) k).trans ?_
  -- the condition of the `UPDATE` is the guard of the memory store
  have hguard : ∀ a : Agent,
      (if (decide (a.pendingCertFingerprint = fingerprint) &&
          decide (a.pendingCertFingerprint ≠ "")) = true then a.promote fingerprint else a) =
        a.presented fingerprint := by
    intro a
    rw [Agent.presented, Agent.promotable, Bool.and_comm]
  simp only [hguard]
  rfl

theorem get_promoteCert (s : Store) :
    (s.promoteCert agentID fingerprint).1.get k =
      if agentID = k then (s.get k).map fun a => a.presented fingerprint else s.get k := by
  cases s with
  | memory m => exact m.get_promoteCert
  | sqlite q => exact q.get_promoteCert

theorem SQLite.heartbeat_fst (s : SQLite) (agentID : String) (now : Model.Time) (stats : Stats) :
    (s.heartbeat agentID now stats).1 = s ∨
      (s.heartbeat agentID now stats).1.agents =
        s.agents.update (hasID agentID) (fun a => a.beat now stats) fun _ => rfl := by
  unfold heartbeat
  split
  · exact Or.inl rfl
  · dsimp only
    split <;> exact Or.inr rfl

theorem get_heartbeat (s : Store) (agentID k : String) (now : Model.Time) (stats : Stats) :
    (s.heartbeat agentID now stats).1.get k = s.get k ∨
      (agentID = k ∧
        (s.heartbeat agentID now stats).1.get k = (s.get k).map fun a => a.beat now stats) := by
  cases s with
  | memory m =>
    show (m.heartbeat agentID now stats).1.get k = m.get k ∨
      agentID = k ∧ (m.heartbeat agentID now stats).1.get k = (m.get k).map _
    unfold Memory.heartbeat
    cases hget : m.get agentID with
    | none => exact Or.inl rfl
    | some =>
      have hput := Memory.get_put_of_get (k := k) hget fun a => a.beat now stats
      by_cases hk : agentID = k
      · exact Or.inr ⟨hk, hput.trans (if_pos hk)⟩
      · exact Or.inl (hput.trans (if_neg hk))
  | sqlite q =>
    show (q.heartbeat agentID now stats).1.get k = q.get k ∨
      agentID = k ∧ (q.heartbeat agentID now stats).1.get k = (q.get k).map _
    rcases q.heartbeat_fst agentID now stats with h | h
    · exact Or.inl (by rw [h])
    · have hfind := SQLite.find_update_hasID q.agents agentID k
        (fun a => a.beat now stats) fun _ => rfl
      rw [← h] at hfind
      by_cases hk : agentID = k
      · exact Or.inr ⟨hk, hfind.trans (if_pos hk)⟩
      · exact Or.inl (hfind.trans (if_neg hk))

theorem get_enqueueCommand (s : Store) (agentID k : String) (cmd : Command) :
    (s.enqueueCommand agentID cmd).1.get k = s.get k := by
  cases s with
  | memory m =>
    show (m.enqueueCommand agentID cmd).1.get k = m.get k
    unfold Memory.enqueueCommand
    split <;> rfl
  | sqlite q =>
    show (q.enqueueCommand agentID cmd).1.get k = q.get k
    unfold SQLite.enqueueCommand
    split
    · rfl
    · unfold SQLite.appendCommand
      dsimp only
      split <;> rfl

theorem get_drainCommands (s : Store) (agentID k : String) :
    (s.drainCommands agentID).1.get k = s.get k := by
  cases s <;> rfl

theorem get_recordAlert (s : Store) (record : AlertRecord) (newID k : String) :
    (s.recordAlert record newID).get k = s.get k := by
  cases s with
  | memory => simp only [recordAlert, Memory.recordAlert, get, Memory.get]
  | sqlite q =>
    show (q.recordAlert record newID).get k = q.get k
    unfold SQLite.recordAlert
    split <;> rfl

/-! ## The queues -/

theorem queue_new (b : Backend) (agentID : String) : (new b).queue agentID = [] := by
  cases b with
  | memory => simp [new, queue, drainCommands, Memory.drainCommands]
  | sqlite => rfl

/-- Sorting leaves an element that no other one has to follow at the end. -/
theorem insertionSort_concat {α : Type*} {r : α → α → Prop} [DecidableRel r] {xs : List α} {b : α}
    (h : ∀ a ∈ xs, r a b) : (xs ++ [b]).insertionSort r = xs.insertionSort r ++ [b] := by
  have hinsert : ∀ (a : α) (ys : List α), r a b →
      (ys ++ [b]).orderedInsert r a = ys.orderedInsert r a ++ [b] := by
    intro a ys hab
    induction ys with
    | nil => simp [hab]
    | cons y ys ih =>
      simp only [cons_append, orderedInsert_cons]
      split_ifs
      · rfl
      · rw [ih, cons_append]
  induction xs with
  | nil => rfl
  | cons a xs ih =>
    rw [cons_append, insertionSort_cons, insertionSort_cons,
      ih fun x hx => h x (mem_cons_of_mem a hx), hinsert _ _ (h a mem_cons_self)]

namespace SQLite

theorem appendCommand_rows (s : SQLite) (agentID : String) (cmd : Command) :
    (s.appendCommand agentID cmd).commands.rows =
      s.commands.rows ++ [{ seq := s.lastSeq + 1, agentID, command := cmd }] := by
  obtain ⟨t, ht, hrows⟩ := Table.insert_eq_some_of_find_none
    (CommandRow.mk (s.lastSeq + 1) agentID cmd) s.find_nextSeq
  unfold appendCommand
  dsimp only
  -- the next sequence number is never taken, so the insertion succeeds
  split
  · next hnone =>
    rw [ht] at hnone
    cases hnone
  · next commands hsome =>
    rw [ht] at hsome
    cases hsome
    exact hrows

theorem queued_appendCommand (s : SQLite) (agentID k : String) (cmd : Command) :
    (s.appendCommand agentID cmd).queued k =
      if agentID = k then s.queued k ++ [cmd] else s.queued k := by
  unfold queued
  rw [appendCommand_rows, filter_append, filter_singleton]
  by_cases hk : agentID = k
  · -- the new row has the largest number, so it is read last
    have hlast : ∀ row ∈ s.commands.rows.filter fun row => row.agentID = k,
        row.seq ≤ s.lastSeq + 1 := fun row hrow =>
      (s.seq_le row (mem_of_mem_filter hrow)).trans (Nat.le_succ _)
    simp only [hk, decide_true, cond_true, if_true]
    rw [insertionSort_concat hlast, map_append]
    rfl
  · simp [hk]

theorem queued_drainCommands (s : SQLite) (agentID k : String) :
    (s.drainCommands agentID).1.queued k = if agentID = k then [] else s.queued k := by
  have hrows : ((s.commands.rows.filter fun row => !decide (row.agentID = agentID)).filter
      fun row => row.agentID = k) =
      if agentID = k then [] else s.commands.rows.filter fun row => row.agentID = k := by
    rw [filter_filter]
    split_ifs with hk
    · simp [hk]
    · refine filter_congr fun row _ => ?_
      by_cases hrow : row.agentID = k
      · simp [hrow, Ne.symm hk]
      · simp [hrow]
  unfold queued
  show (((s.commands.rows.filter fun row => !decide (row.agentID = agentID)).filter
    fun row => row.agentID = k).insertionSort _).map _ = _
  rw [hrows]
  split_ifs <;> rfl

end SQLite

theorem queue_enqueueCommand (s : Store) (agentID k : String) (cmd : Command) :
    (s.enqueueCommand agentID cmd).1.queue k =
      if agentID = k ∧ (s.get agentID).isSome then s.queue k ++ [cmd] else s.queue k := by
  cases s with
  | memory m =>
    show (m.enqueueCommand agentID cmd).1.commands.getD k [] =
      if agentID = k ∧ (m.get agentID).isSome then m.commands.getD k [] ++ [cmd]
      else m.commands.getD k []
    unfold Memory.enqueueCommand
    cases hget : m.get agentID with
    | none => simp
    | some =>
      simp only [Std.ExtTreeMap.getD_insert, compare_eq_iff_eq, Option.isSome_some, and_true]
      split_ifs with hk
      · rw [hk]
      · rfl
  | sqlite q =>
    show (q.enqueueCommand agentID cmd).1.queued k =
      if agentID = k ∧ (q.get agentID).isSome then q.queued k ++ [cmd] else q.queued k
    unfold SQLite.enqueueCommand
    cases hget : q.get agentID with
    | none => simp
    | some => simp [SQLite.queued_appendCommand]

theorem queue_drainCommands (s : Store) (agentID k : String) :
    (s.drainCommands agentID).1.queue k = if agentID = k then [] else s.queue k := by
  cases s with
  | memory m =>
    show (m.commands.erase agentID).getD k [] = if agentID = k then [] else m.commands.getD k []
    rw [Std.ExtTreeMap.getD_erase]
    simp only [compare_eq_iff_eq]
  | sqlite q => exact q.queued_drainCommands agentID k

theorem queue_enroll (s : Store) (agent : Agent) (k : String) :
    (s.enroll agent).queue k = s.queue k := by
  cases s with
  | memory => rfl
  | sqlite q =>
    show (q.enroll agent).queued k = q.queued k
    unfold SQLite.enroll
    split <;> rfl

theorem queue_recordAlert (s : Store) (record : AlertRecord) (newID k : String) :
    (s.recordAlert record newID).queue k = s.queue k := by
  cases s with
  | memory => simp only [recordAlert, Memory.recordAlert, queue, drainCommands, Prod.map,
      Memory.drainCommands]
  | sqlite q =>
    show (q.recordAlert record newID).queued k = q.queued k
    unfold SQLite.recordAlert
    split <;> rfl

theorem queue_setPendingCert (s : Store) (agentID fingerprint k : String) :
    (s.setPendingCert agentID fingerprint).1.queue k = s.queue k := by
  cases s with
  | memory m =>
    show (m.setPendingCert agentID fingerprint).1.commands.getD k [] = m.commands.getD k []
    unfold Memory.setPendingCert
    split <;> rfl
  | sqlite => rfl

theorem queue_promoteCert (s : Store) (agentID fingerprint k : String) :
    (s.promoteCert agentID fingerprint).1.queue k = s.queue k := by
  cases s with
  | memory m =>
    show (m.promoteCert agentID fingerprint).1.commands.getD k [] = m.commands.getD k []
    unfold Memory.promoteCert
    split
    · rfl
    · split_ifs <;> rfl
  | sqlite => rfl

theorem queue_heartbeat (s : Store) (agentID : String) (now : Model.Time) (stats : Stats)
    (k : String) : (s.heartbeat agentID now stats).1.queue k = s.queue k := by
  cases s with
  | memory m =>
    show (m.heartbeat agentID now stats).1.commands.getD k [] = m.commands.getD k []
    unfold Memory.heartbeat
    split <;> rfl
  | sqlite q =>
    show (q.heartbeat agentID now stats).1.queued k = q.queued k
    unfold SQLite.heartbeat
    split
    · rfl
    · dsimp only
      split <;> rfl

end ArgusEdr.Store
