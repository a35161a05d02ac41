import ArgusEdr.Lib.Table
import ArgusEdr.Model.Event

/-!
# The control plane's fleet state (`server/store`)

The agent inventory, the recent alerts and the per-agent command queues, behind one interface with two
implementations: `Memory`, which keeps maps and a slice, and `SQLite`, which keeps tables and runs
statements on them. Every operation is one atomic step. The identifier `NewID` draws and the clock are
arguments of the operations that read them. Operational errors of the database are left out.
-/

namespace ArgusEdr
namespace Store

/-! ## Records -/

structure Agent where
  id : String
  hostname : String
  version : String
  kernel : String
  certFingerprint : String
  pendingCertFingerprint : String := ""
  firstSeen : Model.Time
  lastSeen : Model.Time
  eventsProcessed : UInt64 := 0
  alerts : UInt64 := 0
  incidents : UInt64 := 0
  rulesVersion : String := ""
deriving Repr, DecidableEq

structure Stats where
  eventsProcessed : UInt64 := 0
  alerts : UInt64 := 0
  incidents : UInt64 := 0
  rulesVersion : String := ""
deriving Repr, DecidableEq

/-- A flattened alert as received from an agent. -/
structure AlertRecord where
  id : String := ""
  agentID : String := ""
  hostname : String := ""
  time : Model.Time := 0
  ruleID : String := ""
  ruleName : String := ""
  severity : String := ""
  techniqueID : String := ""
  techniqueName : String := ""
  pid : UInt32 := 0
  processName : String := ""
  processExecutable : String := ""
  destinationIP : String := ""
  riskScore : ℤ := 0
  isIncident : Bool := false
deriving Repr, DecidableEq

/-- What `RecordAlert` stores: the record, under a fresh id if it has none. -/
def AlertRecord.identified (record : AlertRecord) (newID : String) : AlertRecord :=
  if record.id = "" then { record with id := newID } else record

structure Command where
  kind : String
  argument : String
deriving Repr, DecidableEq

/-- A history query. `since` and `until_` are absent where the source has the zero time. -/
structure AlertFilter where
  hostname : String := ""
  severity : String := ""
  techniqueID : String := ""
  since : Option Model.Time := none
  until_ : Option Model.Time := none
  incidentsOnly : Bool := false
  limit : ℤ := 0
deriving Repr, DecidableEq

def AlertFilter.matches (f : AlertFilter) (record : AlertRecord) : Bool :=
  (f.hostname = "" || record.hostname = f.hostname) &&
  (f.severity = "" || record.severity = f.severity) &&
  (f.techniqueID = "" || record.techniqueID = f.techniqueID) &&
  (!f.incidentsOnly || record.isIncident) &&
  (f.since.all fun since => decide (since ≤ record.time)) &&
  (f.until_.all fun until_ => decide (record.time ≤ until_))

/-- Cuts a result list to a limit, of which zero or less means none. -/
def applyLimit {α : Type*} (limit : ℤ) (records : List α) : List α :=
  if limit > 0 then records.take limit.toNat else records

def newAgent (id : String) (now : Model.Time) (hostname version kernel fingerprint : String) :
    Agent where
  id := id
  hostname := hostname
  version := version
  kernel := kernel
  certFingerprint := fingerprint
  firstSeen := now
  lastSeen := now

def Agent.beat (a : Agent) (now : Model.Time) (stats : Stats) : Agent :=
  { a with
    lastSeen := now
    eventsProcessed := stats.eventsProcessed
    alerts := stats.alerts
    incidents := stats.incidents
    rulesVersion := stats.rulesVersion }

def Agent.stage (a : Agent) (fingerprint : String) : Agent :=
  { a with pendingCertFingerprint := fingerprint }

/-- The staged certificate becomes the only one. -/
def Agent.promote (a : Agent) (fingerprint : String) : Agent :=
  { a with certFingerprint := fingerprint, pendingCertFingerprint := "" }

/-- The guard of `PromoteCert`. -/
def Agent.promotable (a : Agent) (fingerprint : String) : Bool :=
  a.pendingCertFingerprint ≠ "" && a.pendingCertFingerprint = fingerprint

/-! ## The in-memory store -/

structure Memory where
  agents : Std.ExtTreeMap String Agent := {}
  alerts : List AlertRecord := []
  commands : Std.ExtTreeMap String (List Command) := {}

namespace Memory

def maxRetainedAlerts : ℕ := 1000

def enroll (m : Memory) (agent : Agent) : Memory :=
  { m with agents := m.agents.insert agent.id agent }

def get (m : Memory) (agentID : String) : Option Agent := m.agents[agentID]?

/-- Rewrites one agent; the shape of every operation on a known agent. -/
def put (m : Memory) (agentID : String) (agent : Agent) : Memory :=
  { m with agents := m.agents.insert agentID agent }

def heartbeat (m : Memory) (agentID : String) (now : Model.Time) (stats : Stats) :
    Memory × Option Agent :=
  match m.get agentID with
  | none => (m, none)
  | some agent => (m.put agentID (agent.beat now stats), some (agent.beat now stats))

def setPendingCert (m : Memory) (agentID fingerprint : String) : Memory × Bool :=
  match m.get agentID with
  | none => (m, false)
  | some agent => (m.put agentID (agent.stage fingerprint), true)

def promoteCert (m : Memory) (agentID fingerprint : String) : Memory × Bool :=
  match m.get agentID with
  | none => (m, false)
  | some agent =>
    if agent.promotable fingerprint then (m.put agentID (agent.promote fingerprint), true)
    else (m, false)

/-- The agents, in no particular order. -/
def list (m : Memory) : List Agent := m.agents.values

/-- Appends, and drops the oldest alerts past the retention bound. -/
def recordAlert (m : Memory) (record : AlertRecord) (newID : String) : Memory :=
  let alerts := m.alerts ++ [record.identified newID]
  { m with alerts := alerts.drop (alerts.length - maxRetainedAlerts) }

def queryAlerts (m : Memory) (filter : AlertFilter) : List AlertRecord :=
  applyLimit filter.limit (m.alerts.reverse.filter filter.matches)

def alertByID (m : Memory) (id : String) : Option AlertRecord :=
  m.alerts.reverse.find? fun record => record.id = id

def pruneAlerts (m : Memory) (before : Model.Time) : Memory × ℕ :=
  ({ m with alerts := m.alerts.filter fun record => !decide (record.time < before) },
    m.alerts.countP fun record => decide (record.time < before))

def enqueueCommand (m : Memory) (agentID : String) (cmd : Command) : Memory × Bool :=
  match m.get agentID with
  | none => (m, false)
  | some _ =>
    ({ m with commands := m.commands.insert agentID (m.commands.getD agentID [] ++ [cmd]) }, true)

def drainCommands (m : Memory) (agentID : String) : Memory × List Command :=
  ({ m with commands := m.commands.erase agentID }, m.commands.getD agentID [])

end Memory

/-! ## The SQLite store -/

structure CommandRow where
  seq : ℕ
  agentID : String
  command : Command
deriving Repr, DecidableEq

/-- The tables of the database. `lastSeq` is what `AUTOINCREMENT` remembers, so a key it
hands out is larger than any in the table. Row order is the order of `rowid`. -/
structure SQLite where
  agents : Table Agent.id := .empty
  alerts : Table AlertRecord.id := .empty
  commands : Table CommandRow.seq := .empty
  lastSeq : ℕ := 0
  seq_le : ∀ row ∈ commands.rows, row.seq ≤ lastSeq := by simp [Table.empty]

namespace SQLite

/-- `INSERT INTO agents`; a taken id is an error, which is logged. -/
def enroll (s : SQLite) (agent : Agent) : SQLite :=
  match s.agents.insert agent with
  | none => s
  | some agents => { s with agents }

def get (s : SQLite) (agentID : String) : Option Agent := s.agents.find agentID

def hasID (agentID : String) (a : Agent) : Bool := a.id = agentID

/-- Whether `database/sql` can bind a counter: it refuses one with the high bit set. -/
def bindable (n : UInt64) : Bool := n.toNat < 2 ^ 63

def heartbeat (s : SQLite) (agentID : String) (now : Model.Time) (stats : Stats) :
    SQLite × Option Agent :=
  if ¬(bindable stats.eventsProcessed && bindable stats.alerts && bindable stats.incidents) then
    (s, none)
  else
    let s' := { s with
      agents := s.agents.update (hasID agentID) (fun a => a.beat now stats) fun _ => rfl }
    if s.agents.affected (hasID agentID) = 0 then (s', none)
    else (s', s'.get agentID)

/-- `UPDATE agents SET pending_cert_fingerprint = ? WHERE id = ?`. -/
def setPendingCert (s : SQLite) (agentID fingerprint : String) : SQLite × Bool :=
  ({ s with
      agents := s.agents.update (hasID agentID) (fun a => a.stage fingerprint) fun _ => rfl },
    decide (0 < s.agents.affected (hasID agentID)))

/-- `UPDATE agents SET cert_fingerprint = ?, pending_cert_fingerprint = '' WHERE id = ? AND
pending_cert_fingerprint = ? AND pending_cert_fingerprint != ''`. -/
def promoteCert (s : SQLite) (agentID fingerprint : String) : SQLite × Bool :=
  let selected : Agent → Bool := fun a =>
    hasID agentID a && (a.pendingCertFingerprint = fingerprint && a.pendingCertFingerprint ≠ "")
  ({ s with
      agents := s.agents.update selected (fun a => a.promote fingerprint) fun _ => rfl },
    decide (0 < s.agents.affected selected))

def list (s : SQLite) : List Agent :=
  s.agents.rows.insertionSort fun a b => a.hostname ≤ b.hostname

/-- `INSERT INTO alerts`; a taken id is an error, which is logged. -/
def recordAlert (s : SQLite) (record : AlertRecord) (newID : String) : SQLite :=
  match s.alerts.insert (record.identified newID) with
  | none => s
  | some alerts => { s with alerts }

/-- The query of `buildAlertQuery`, `ORDER BY ts DESC, rowid DESC`. -/
def queryAlerts (s : SQLite) (filter : AlertFilter) : List AlertRecord :=
  applyLimit filter.limit
    ((s.alerts.rows.filter filter.matches).reverse.insertionSort fun a b => b.time ≤ a.time)

def alertByID (s : SQLite) (id : String) : Option AlertRecord := s.alerts.find id

def pruneAlerts (s : SQLite) (before : Model.Time) : SQLite × ℕ :=
  let selected : AlertRecord → Bool := fun record => record.time < before
  ({ s with alerts := s.alerts.delete selected }, s.alerts.affected selected)

theorem find_nextSeq (s : SQLite) : s.commands.find (s.lastSeq + 1) = none := by
  rw [Table.find_eq_none_iff]
  intro h
  obtain ⟨row, hrow, hseq⟩ := List.mem_map.mp h
  have := s.seq_le row hrow
  omega

def appendCommand (s : SQLite) (agentID : String) (cmd : Command) : SQLite :=
  let row : CommandRow := { seq := s.lastSeq + 1, agentID, command := cmd }
  match h : s.commands.insert row with
  | none => s
  | some commands =>
    { s with
      commands := commands
      lastSeq := s.lastSeq + 1
      seq_le := by
        obtain ⟨t, ht, hrows⟩ := Table.insert_eq_some_of_find_none row s.find_nextSeq
        rw [h] at ht
        cases ht
        rw [hrows]
        intro r hr
        rcases List.mem_append.mp hr with hr | hr
        · exact (s.seq_le r hr).trans (Nat.le_succ _)
        · rw [List.mem_singleton] at hr
          rw [hr] }

def enqueueCommand (s : SQLite) (agentID : String) (cmd : Command) : SQLite × Bool :=
  match s.get agentID with
  | none => (s, false)
  | some _ => (s.appendCommand agentID cmd, true)

/-- `SELECT kind, argument FROM commands WHERE agent_id = ? ORDER BY seq`. -/
def queued (s : SQLite) (agentID : String) : List Command :=
  ((s.commands.rows.filter fun row => row.agentID = agentID).insertionSort
    fun a b => a.seq ≤ b.seq).map CommandRow.command

def drainCommands (s : SQLite) (agentID : String) : SQLite × List Command :=
  ({ s with
      commands := s.commands.delete fun row => row.agentID = agentID
      seq_le := fun row hrow => s.seq_le row (List.mem_of_mem_filter hrow) },
    s.queued agentID)

end SQLite

end Store

/-! ## The interface -/

/-- A value of the `Store` interface: one of the two implementations. -/
inductive Store where
  | memory (m : Store.Memory)
  | sqlite (s : Store.SQLite)

namespace Store

inductive Backend where
  | memory | sqlite
deriving Repr, DecidableEq

/-- `Open`, for a database that does not exist yet. -/
def new : Backend → Store
  | .memory => .memory {}
  | .sqlite => .sqlite {}

def enroll (s : Store) (agent : Agent) : Store :=
  match s with
  | .memory m => .memory (m.enroll agent)
  | .sqlite q => .sqlite (q.enroll agent)

def get (s : Store) (agentID : String) : Option Agent :=
  match s with
  | .memory m => m.get agentID
  | .sqlite q => q.get agentID

def heartbeat (s : Store) (agentID : String) (now : Model.Time) (stats : Stats) :
    Store × Option Agent :=
  match s with
  | .memory m => (m.heartbeat agentID now stats).map .memory id
  | .sqlite q => (q.heartbeat agentID now stats).map .sqlite id

def setPendingCert (s : Store) (agentID fingerprint : String) : Store × Bool :=
  match s with
  | .memory m => (m.setPendingCert agentID fingerprint).map .memory id
  | .sqlite q => (q.setPendingCert agentID fingerprint).map .sqlite id

def promoteCert (s : Store) (agentID fingerprint : String) : Store × Bool :=
  match s with
  | .memory m => (m.promoteCert agentID fingerprint).map .memory id
  | .sqlite q => (q.promoteCert agentID fingerprint).map .sqlite id

def list (s : Store) : List Agent :=
  match s with
  | .memory m => m.list
  | .sqlite q => q.list

def recordAlert (s : Store) (record : AlertRecord) (newID : String) : Store :=
  match s with
  | .memory m => .memory (m.recordAlert record newID)
  | .sqlite q => .sqlite (q.recordAlert record newID)

def queryAlerts (s : Store) (filter : AlertFilter) : List AlertRecord :=
  match s with
  | .memory m => m.queryAlerts filter
  | .sqlite q => q.queryAlerts filter

def recentAlerts (s : Store) (limit : ℤ) : List AlertRecord := s.queryAlerts { limit }

def alertByID (s : Store) (id : String) : Option AlertRecord :=
  match s with
  | .memory m => m.alertByID id
  | .sqlite q => q.alertByID id

def pruneAlerts (s : Store) (before : Model.Time) : Store × ℕ :=
  match s with
  | .memory m => (m.pruneAlerts before).map .memory id
  | .sqlite q => (q.pruneAlerts before).map .sqlite id

def enqueueCommand (s : Store) (agentID : String) (cmd : Command) : Store × Bool :=
  match s with
  | .memory m => (m.enqueueCommand agentID cmd).map .memory id
  | .sqlite q => (q.enqueueCommand agentID cmd).map .sqlite id

def drainCommands (s : Store) (agentID : String) : Store × List Command :=
  match s with
  | .memory m => (m.drainCommands agentID).map .memory id
  | .sqlite q => (q.drainCommands agentID).map .sqlite id

/-- The commands waiting for an agent: what a drain would deliver. -/
def queue (s : Store) (agentID : String) : List Command := (s.drainCommands agentID).2

end Store
end ArgusEdr
