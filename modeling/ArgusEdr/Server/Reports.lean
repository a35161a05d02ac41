import ArgusEdr.Lib.Pool
import ArgusEdr.Server.CrossHost
import ArgusEdr.Server.Identity

/-!
# Report streams (`server/api`)

`ReportAlerts` serves one stream of reports. The agent of the first report is checked against the
certificate of the connection, and every later report has to name the same agent. A report becomes
an alert record, which is stored and handed to the cross-host correlator.

A stream is a goroutine: `advance` is its next atomic step on `Control`, the state it shares with the
other streams and with the requests of `Identity`. A run of `Fleet` is any interleaving of these.
-/

namespace ArgusEdr.Reports

open CrossHost (Correlator Observation Signal)
open Identity (Status)
open Model
open Store (AlertRecord Backend)

/-! ## Reports -/

structure AlertReport where
  agentID : String
  hostname : String := ""
  timestamp : Option Time := none
  ruleID : String := ""
  ruleName : String := ""
  severity : String := ""
  techniqueID : String := ""
  techniqueName : String := ""
  pid : UInt32 := 0
  processName : String := ""
  processExecutable : String := ""
  destinationIP : String := ""
  riskScore : Int32 := 0
  isIncident : Bool := false
deriving Repr, DecidableEq

def recordFromReport (report : AlertReport) : AlertRecord where
  agentID := report.agentID
  hostname := report.hostname
  time := report.timestamp.getD 0
  ruleID := report.ruleID
  ruleName := report.ruleName
  severity := report.severity
  techniqueID := report.techniqueID
  techniqueName := report.techniqueName
  pid := report.pid
  processName := report.processName
  processExecutable := report.processExecutable
  destinationIP := report.destinationIP
  riskScore := report.riskScore.toInt
  isIncident := report.isIncident

/-! ## Streams -/

/-- How a stream ends: with the count of its reports, with an error of the service, or with one of
the connection. -/
inductive Outcome where
  | ack (received : UInt64)
  | status (status : Status)
  | broken

inductive Phase where
  /-- in `Recv` -/
  | receiving
  /-- in `authorizeIdentity` with the first report -/
  | authorizing (request : ℕ) (report : AlertReport)
  /-- before `RecordAlert` -/
  | recording (record : AlertRecord)
  /-- before `Observe` -/
  | correlating (record : AlertRecord)
  | closed (outcome : Outcome)

structure Stream where
  fingerprint : String
  authorizedAgent : String := ""
  received : UInt64 := 0
  phase : Phase := .receiving

/-- What the streams share. The last three fields say what has happened so far: the alerts recorded
(which `onAlert` is handed), the calls of `Observe`, and the signals `onSignal` is handed. -/
structure Control where
  identity : Identity.Service
  correlator : Option Correlator
  recorded : List AlertRecord := []
  observed : List Observation := []
  signalled : List Signal := []

inductive Recv where
  | report (report : AlertReport)
  | eof
  | error
deriving Repr, DecidableEq

/-- What a step of a stream may read: the next message, the id drawn for an alert, and the clock. -/
structure Env where
  recv : Recv := .eof
  newID : String := ""
  now : Time := 0

/-- `Recv` and what follows it up to the first step that other goroutines see: a stream without an
agent begins the identity check, of which `Get` is the first step. -/
def receive (c : Control) (st : Stream) : Recv → Control × Stream
  | .eof => (c, { st with phase := .closed (.ack st.received) })
  | .error => (c, { st with phase := .closed .broken })
  | .report report =>
    -- the first report decides whose stream it is
    if st.authorizedAgent = "" then
      ({ c with identity := Identity.step c.identity (.get report.agentID st.fingerprint) },
        { st with phase := .authorizing c.identity.requests.length report })
    else if report.agentID ≠ st.authorizedAgent then
      (c,
        { st with
          phase := .closed (.status
            { code := .permissionDenied
              message := .errorf "all alerts in a stream must come from the enrolled agent" [] }) })
    else (c, { st with phase := .recording (recordFromReport report) })

/-- The end of the identity check; one that is about to promote a certificate is not there yet. -/
def authorize (c : Control) (st : Stream) (request : ℕ) (report : AlertReport) : Stream :=
  match (c.identity.requests[request]?).map Identity.Request.verdict with
  | some (.accepted _) =>
    { st with
      authorizedAgent := report.agentID
      phase := .recording (recordFromReport report) }
  | some (.rejected status) => { st with phase := .closed (.status status) }
  | some (.promoting _) | none => st

def record (c : Control) (record : AlertRecord) (newID : String) : Control :=
  { c with
    identity := { c.identity with store := c.identity.store.recordAlert record newID }
    recorded := c.recorded ++ [record] }

def correlate (c : Control) (record : AlertRecord) (now : Time) : Control :=
  match c.correlator with
  | none => c
  | some correlator =>
    let o : Observation := { record, clock := now }
    let (correlator, signals) := correlator.observe o
    { c with
      correlator := some correlator
      observed := c.observed ++ [o]
      signalled := c.signalled ++ signals }

def advance (env : Env) (c : Control) (st : Stream) : Control × Stream :=
  match st.phase with
  | .receiving => receive c st env.recv
  | .authorizing request report => (c, authorize c st request report)
  | .recording alert => (record c alert env.newID, { st with phase := .correlating alert })
  | .correlating alert =>
    (correlate c alert env.now, { st with received := st.received + 1, phase := .receiving })
  | .closed _ => (c, st)

/-! ## The service -/

structure Fleet where
  control : Control
  streams : List Stream := []

/-- A service with a correlator of the given window and number of hosts, or with none. -/
def start (backend : Backend) (token : String) (correlation : Option (ℤ × ℤ)) : Fleet where
  control :=
    { identity := Identity.start backend token
      correlator := correlation.map fun p => CrossHost.newCrossHost p.1 p.2 }

inductive Event where
  /-- an enrollment, a rotation, or a step of a request or of a stream's identity check -/
  | identity (e : Identity.Event)
  /-- a connection with a certificate opens a stream -/
  | connect (fingerprint : String)
  /-- stream `n` takes its next step -/
  | stream (n : ℕ) (env : Env)

def step (s : Fleet) : Event → Fleet
  | .identity e =>
    { s with control := { s.control with identity := Identity.step s.control.identity e } }
  | .connect fingerprint => { s with streams := s.streams ++ [{ fingerprint }] }
  | .stream n env =>
    let (control, streams) := Pool.advanceAt (advance env) s.control s.streams n
    { control, streams }

def FreshID (s : Fleet) : Event → Prop
  | .identity e => Identity.FreshID s.control.identity e
  | .connect _ | .stream .. => True

instance (s : Fleet) : (e : Event) → Decidable (FreshID s e)
  | .identity e => inferInstanceAs (Decidable (Identity.FreshID s.control.identity e))
  | .connect _ | .stream .. => .isTrue trivial

end ArgusEdr.Reports
