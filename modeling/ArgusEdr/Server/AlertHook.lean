import ArgusEdr.Server.AlertHistory
import ArgusEdr.Server.Reports

/-!
# The record the alert hook is handed (`server/api`)

`ReportAlerts` passes one record to `RecordAlert` and then to the hook `onAlert`. `RecordAlert` gives
its own copy an id, so the hook sees what is stored except for the id (`stored_handed`), and the id it
sees is always empty (`step_unidentified`): `handed_stored_iff`.
-/

namespace ArgusEdr

open List

/-! ## Alerts by id -/

namespace Store

theorem alertByID_recordAlert_memory (m : Memory) (record : AlertRecord) (newID : String) :
    (m.recordAlert record newID).alertByID (record.identified newID).id =
      some (record.identified newID) := by
  have hcut : (m.alerts ++ [record.identified newID]).length - Memory.maxRetainedAlerts ≤
      m.alerts.length := by
    rw [length_append, length_singleton, Memory.maxRetainedAlerts]
    omega
  simp only [Memory.recordAlert, Memory.alertByID]
  -- the newest alert is kept, and the search begins with it
  rw [drop_append_of_le_length hcut, reverse_append, reverse_singleton,
    singleton_append, find?_cons_of_pos (by simp)]

theorem alertByID_recordAlert {s : Store} {record : AlertRecord} {newID : String}
    (h : (record.identified newID).id ∉ s.held.map AlertRecord.id) :
    (s.recordAlert record newID).alertByID (record.identified newID).id =
      some (record.identified newID) := by
  cases s with
  | memory m => exact alertByID_recordAlert_memory m record newID
  | sqlite q =>
    obtain ⟨t, ht, -⟩ := Table.insert_eq_some_of_find_none (record.identified newID)
      ((Table.find_eq_none_iff q.alerts _).mpr h)
    show (q.recordAlert record newID).alerts.find _ = _
    unfold SQLite.recordAlert
    rw [ht]
    show t.find _ = _
    rw [Table.find_insert ht, if_pos rfl]

end Store

namespace Reports

open Runs (run AllSteps)
open Store (AlertRecord Backend)

/-! ## What the hook is handed -/

/-- The record a stream is about to store and to hand to the hook. -/
def Stream.pending (st : Stream) : Option AlertRecord :=
  match st.phase with
  | .recording record => some record
  | .receiving | .authorizing .. | .correlating _ | .closed _ => none

/-- The record an event hands to the hook, with the id drawn for the stored copy. -/
def handed (s : Fleet) : Event → Option (AlertRecord × String)
  | .stream n env => (s.streams[n]?.bind Stream.pending).map fun record => (record, env.newID)
  | .identity _ | .connect _ => none

/-- The hook is handed a record with an id, under which the store has the same record. -/
def HandsStored (s : Fleet) (e : Event) : Prop :=
  ∀ h ∈ handed s e, h.1.id ≠ "" ∧ (step s e).control.identity.store.alertByID h.1.id = some h.1

/-- The hook is handed what the store has under the id it has drawn, except for the id. -/
def HandsUnidentified (s : Fleet) (e : Event) : Prop :=
  ∀ h ∈ handed s e, h.2 ∉ s.control.identity.store.held.map AlertRecord.id →
    (step s e).control.identity.store.alertByID h.2 = some { h.1 with id := h.2 }

variable {st : Stream} {s : Fleet} {h : AlertRecord × String}

theorem pending_eq_some {record : AlertRecord} (h : st.pending = some record) :
    st.phase = .recording record := by
  unfold Stream.pending at h
  split at h
  · cases h
    assumption
  all_goals cases h

theorem step_of_handed {e : Event} (hh : handed s e = some h) :
    (step s e).control = record s.control h.1 h.2 := by
  cases e with
  | identity | connect => cases hh
  | stream =>
    obtain ⟨alert, halert, rfl⟩ := Option.map_eq_some_iff.mp hh
    obtain ⟨st, hst, hpending⟩ := Option.bind_eq_some_iff.mp halert
    simp only [step, Pool.advanceAt, hst, advance, pending_eq_some hpending]

/-! ## Records without an id -/

/-- Whatever a stream is about to store has no id yet. -/
def Stream.Unidentified (st : Stream) : Prop := ∀ record, st.pending = some record → record.id = ""

theorem unidentified_of_pending_eq_none (h : st.pending = none) : st.Unidentified := by
  intro record hrecord
  rw [h] at hrecord
  cases hrecord

theorem unidentified_fromReport (st : Stream) (report : AlertReport) :
    Stream.Unidentified { st with phase := .recording (recordFromReport report) } := by
  intro record h
  cases h
  rfl

theorem receive_unidentified (c : Control) (st : Stream) (r : Recv) :
    (receive c st r).2.Unidentified := by
  cases r with
  | eof | error => exact unidentified_of_pending_eq_none rfl
  | report report =>
    simp only [receive]
    split_ifs
    · exact unidentified_of_pending_eq_none rfl
    · exact unidentified_of_pending_eq_none rfl
    · exact unidentified_fromReport st report

theorem authorize_unidentified {c : Control} {request : ℕ} {report : AlertReport}
    (h : st.Unidentified) : (authorize c st request report).Unidentified := by
  unfold authorize
  split
  · exact unidentified_fromReport { st with authorizedAgent := report.agentID } report
  · exact unidentified_of_pending_eq_none rfl
  all_goals exact h

theorem advance_unidentified (env : Env) (c : Control) (h : st.Unidentified) :
    (advance env c st).2.Unidentified := by
  unfold advance
  split
  · exact receive_unidentified c st env.recv
  · exact authorize_unidentified h
  · exact unidentified_of_pending_eq_none rfl
  · exact unidentified_of_pending_eq_none rfl
  · exact h

theorem step_unidentified (s : Fleet) (e : Event) (h : ∀ st ∈ s.streams, st.Unidentified) :
    ∀ st ∈ (step s e).streams, st.Unidentified := by
  cases e with
  | identity => exact h
  | connect =>
    exact Pool.forall_mem_spawn h (unidentified_of_pending_eq_none rfl)
  | stream n env =>
    exact (Pool.advanceAt_invariant (I := fun _ => True) trivial h
      fun st _ hst => ⟨trivial, advance_unidentified env s.control hst⟩).2

theorem id_of_handed {e : Event} (hs : ∀ st ∈ s.streams, st.Unidentified)
    (hh : handed s e = some h) : h.1.id = "" := by
  cases e with
  | identity | connect => cases hh
  | stream =>
    obtain ⟨alert, halert, rfl⟩ := Option.map_eq_some_iff.mp hh
    obtain ⟨st, hst, hpending⟩ := Option.bind_eq_some_iff.mp halert
    exact hs st (mem_of_getElem? hst) alert hpending

theorem handsStored_iff (e : Event) (hs : ∀ st ∈ s.streams, st.Unidentified) :
    HandsStored s e ↔ handed s e = none := by
  constructor
  · intro h
    cases hh : handed s e with
    | none => rfl
    | some p => exact absurd (id_of_handed hs hh) (h p hh).1
  · intro h p hp
    rw [h] at hp
    cases hp

theorem stored_handed (e : Event) (hs : ∀ st ∈ s.streams, st.Unidentified) :
    HandsUnidentified s e := by
  intro h hh hfresh
  have hid : h.1.identified h.2 = { h.1 with id := h.2 } := if_pos (id_of_handed hs hh)
  have hkey : (h.1.identified h.2).id = h.2 := by rw [hid]
  rw [step_of_handed hh]
  show (s.control.identity.store.recordAlert h.1 h.2).alertByID h.2 = _
  rw [← hid]
  nth_rewrite 2 [← hkey]
  exact Store.alertByID_recordAlert (by rwa [hkey])

/-- An agent has enrolled and its first report is about to be stored. -/
def reported (backend : Backend) : Fleet :=
  run step (start backend "" none)
    [.identity (.enroll "A" 1 { hostname := "web-01", peerFingerprint := "cert" }), .connect "cert",
     .stream 0 { recv := .report { agentID := "A", ruleID := "R-1" } }, .stream 0 {}]

end Reports
end ArgusEdr
