import ArgusEdr.Lib.Ranking
import ArgusEdr.Lib.Simulation
import ArgusEdr.Server.StoreTheorems

/-!
# The alert history of the two stores

Both stores hold the alerts that were recorded and not yet pruned; `held` is that list, oldest
recorded first, and the two implementations keep the same one (`SameAlerts.alertCall`). They
read it differently: `Memory.QueryAlerts` walks the slice from its end, so the alert recorded
last comes first, while the statement of `buildAlertQuery` orders by the time of the alert. The
answers agree exactly when the alerts a query returns were recorded in the order of their times
(`alert_histories_agree_iff`).
-/

namespace ArgusEdr.Store

open List

open Runs (run AllSteps)
open Simulation (next answers)
open Ranking (Leading)

/-! ## The statement of a history query -/

/-- The conditions `buildAlertQuery` puts into the `WHERE` clause, with their arguments. -/
inductive AlertClause where
  | hostname (value : String)
  | severity (value : String)
  | techniqueID (value : String)
  | isIncident (value : ℕ)
  | since (nanos : Model.Time)
  | until_ (nanos : Model.Time)
deriving Repr, DecidableEq

def boolToInt (b : Bool) : ℕ := if b then 1 else 0

def AlertClause.holds (row : AlertRecord) : AlertClause → Bool
  | .hostname value => row.hostname = value
  | .severity value => row.severity = value
  | .techniqueID value => row.techniqueID = value
  | .isIncident value => boolToInt row.isIncident = value
  | .since nanos => row.time ≥ nanos
  | .until_ nanos => row.time ≤ nanos

def buildAlertQuery (filter : AlertFilter) : List AlertClause :=
  (if filter.hostname ≠ "" then [AlertClause.hostname filter.hostname] else []) ++
  (if filter.severity ≠ "" then [AlertClause.severity filter.severity] else []) ++
  (if filter.techniqueID ≠ "" then [AlertClause.techniqueID filter.techniqueID] else []) ++
  (if filter.incidentsOnly then [AlertClause.isIncident 1] else []) ++
  (filter.since.toList.map AlertClause.since) ++
  (filter.until_.toList.map AlertClause.until_)

/-- The clauses select the rows the filter matches. -/
theorem all_buildAlertQuery (filter : AlertFilter) (row : AlertRecord) :
    ((buildAlertQuery filter).all fun clause => clause.holds row) = filter.matches row := by
  have hincident : decide (boolToInt row.isIncident = 1) = row.isIncident := by
    cases row.isIncident <;> rfl
  simp only [buildAlertQuery, all_append, Table.all_ite_singleton, Table.all_map_toList,
    AlertClause.holds, AlertFilter.matches, hincident, ne_eq, decide_not, Bool.not_not,
    Bool.decide_eq_true]

/-- `SQLite.QueryAlerts` is the statement of `buildAlertQuery`, `ORDER BY ts DESC, rowid DESC`
and then cut to the limit. -/
theorem SQLite.queryAlerts_eq (s : SQLite) (filter : AlertFilter) :
    s.queryAlerts filter =
      applyLimit filter.limit
        ((s.alerts.rows.filter fun row =>
          (buildAlertQuery filter).all fun clause => clause.holds row).reverse.insertionSort
            fun a b => b.time ≤ a.time) := by
  simp only [all_buildAlertQuery]
  rfl

/-! ## The alerts held -/

def held : Store → List AlertRecord
  | .memory m => m.alerts
  | .sqlite q => q.alerts.rows

inductive AlertCall where
  | recordAlert (record : AlertRecord) (newID : String)
  | pruneAlerts (before : Model.Time)
deriving Repr, DecidableEq

/-- One write to the history, with the count a pruning returns. -/
def alertCall (s : Store) : AlertCall → Store × Option ℕ
  | .recordAlert record newID => (s.recordAlert record newID, none)
  | .pruneAlerts before => (s.pruneAlerts before).map id some

/-- An alert is recorded under an id that is not in use, and a place is left for it. -/
def HasRoom (s : Store) : AlertCall → Prop
  | .recordAlert record newID =>
    (record.identified newID).id ∉ s.held.map AlertRecord.id ∧
      s.held.length < Memory.maxRetainedAlerts
  | .pruneAlerts _ => True

instance (s : Store) (c : AlertCall) : Decidable (s.HasRoom c) := by
  cases c <;> unfold HasRoom <;> infer_instance

theorem held_recordAlert {s : Store} {record : AlertRecord} {newID : String}
    (h : s.HasRoom (.recordAlert record newID)) :
    (s.recordAlert record newID).held = s.held ++ [record.identified newID] := by
  obtain ⟨hfresh, hroom⟩ := h
  cases s with
  | memory m =>
    have hdrop : (m.alerts ++ [record.identified newID]).length - Memory.maxRetainedAlerts = 0 := by
      have hlen : m.alerts.length < Memory.maxRetainedAlerts := hroom
      rw [length_append, length_singleton]
      omega
    simp only [recordAlert, Memory.recordAlert, held, hdrop, drop_zero]
  | sqlite q =>
    obtain ⟨t, ht, hrows⟩ := Table.insert_eq_some_of_find_none (record.identified newID)
      ((Table.find_eq_none_iff q.alerts _).mpr hfresh)
    show (q.recordAlert record newID).alerts.rows = q.alerts.rows ++ [record.identified newID]
    unfold SQLite.recordAlert
    rw [ht]
    exact hrows

theorem held_pruneAlerts (s : Store) (before : Model.Time) :
    (s.pruneAlerts before).1.held = s.held.filter fun record => !decide (record.time < before) := by
  cases s <;> rfl

theorem pruneAlerts_snd (s : Store) (before : Model.Time) :
    (s.pruneAlerts before).2 = s.held.countP fun record => decide (record.time < before) := by
  cases s <;> rfl

inductive SameAlerts : Store → Store → Prop
  | mk (m : Memory) (q : SQLite) (h : m.alerts = q.alerts.rows) : SameAlerts (.memory m) (.sqlite q)

/-- A write keeps the alerts of the two stores the same, and a pruning returns the same count. -/
theorem SameAlerts.alertCall {s t : Store} (h : SameAlerts s t) {c : AlertCall}
    (hc : s.HasRoom c) :
    SameAlerts (next alertCall s c) (next alertCall t c) ∧ (s.alertCall c).2 = (t.alertCall c).2 := by
  obtain ⟨m, q, h⟩ := h
  have hheld : held (.sqlite q) = held (.memory m) := h.symm
  cases c with
  | recordAlert record newID =>
    have hc' : (Store.sqlite q).HasRoom (.recordAlert record newID) := by
      unfold HasRoom at hc ⊢
      rwa [hheld]
    refine ⟨.mk (m.recordAlert record newID) (q.recordAlert record newID) ?_, rfl⟩
    show held (recordAlert (.memory m) record newID) = held (recordAlert (.sqlite q) record newID)
    rw [held_recordAlert hc, held_recordAlert hc', hheld]
  | pruneAlerts before =>
    constructor
    · refine .mk (m.pruneAlerts before).1 (q.pruneAlerts before).1 ?_
      show held (pruneAlerts (.memory m) before).1 = held (pruneAlerts (.sqlite q) before).1
      rw [held_pruneAlerts, held_pruneAlerts, hheld]
    · show some (pruneAlerts (.memory m) before).2 = some (pruneAlerts (.sqlite q) before).2
      rw [pruneAlerts_snd, pruneAlerts_snd, hheld]

/-! ## What a query returns -/

def matching (filter : AlertFilter) (alerts : List AlertRecord) : List AlertRecord :=
  (alerts.filter filter.matches).reverse

/-- How many of `n` results a limit keeps. -/
def kept (limit : ℤ) (n : ℕ) : ℕ := if limit > 0 then limit.toNat else n

theorem applyLimit_eq_take {α : Type*} (limit : ℤ) (l : List α) :
    applyLimit limit l = l.take (kept limit l.length) := by
  unfold applyLimit kept
  split_ifs
  · rfl
  · exact (take_length).symm

def newerFirst (a b : AlertRecord) : Prop := b.time ≤ a.time

instance : DecidableRel newerFirst := fun a b => inferInstanceAs (Decidable (b.time ≤ a.time))

instance : Std.Total newerFirst := ⟨fun a b => le_total b.time a.time⟩

instance : IsTrans AlertRecord newerFirst := ⟨fun _ _ _ hab hbc => le_trans hbc hab⟩

/-- None of the matching alerts within the limit, counted from the one recorded last, is older
than a matching one recorded before it. -/
def RecordedInOrder (filter : AlertFilter) (alerts : List AlertRecord) : Prop :=
  Leading newerFirst (kept filter.limit (matching filter alerts).length) (matching filter alerts)

instance (filter : AlertFilter) (alerts : List AlertRecord) :
    Decidable (RecordedInOrder filter alerts) := by
  unfold RecordedInOrder; infer_instance

theorem Memory.queryAlerts_eq (m : Memory) (filter : AlertFilter) :
    m.queryAlerts filter = applyLimit filter.limit (matching filter m.alerts) := by
  rw [Memory.queryAlerts, matching, filter_reverse]

/-- On stores that hold the same alerts, a query has the same answer exactly if the alerts it
returns were recorded in the order of their times. -/
theorem queryAlerts_eq_iff {m : Memory} {q : SQLite} (h : m.alerts = q.alerts.rows)
    (filter : AlertFilter) :
    m.queryAlerts filter = q.queryAlerts filter ↔ RecordedInOrder filter m.alerts := by
  have hsql : q.queryAlerts filter =
      ((matching filter m.alerts).insertionSort newerFirst).take
        (kept filter.limit (matching filter m.alerts).length) := by
    rw [h]
    refine (applyLimit_eq_take filter.limit _).trans ?_
    rw [length_insertionSort]
    rfl
  rw [Memory.queryAlerts_eq, applyLimit_eq_take, hsql, eq_comm]
  exact Ranking.take_insertionSort_eq_iff _ _

/-- Two alerts of two agents, of which the one recorded last is the older one. -/
def lateAlert : List AlertCall :=
  [.recordAlert { hostname := "web-01", time := 200 } "alert-1",
   .recordAlert { hostname := "web-02", time := 100 } "alert-2"]

end ArgusEdr.Store
