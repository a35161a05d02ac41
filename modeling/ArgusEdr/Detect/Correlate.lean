import ArgusEdr.Lib.Simulation
import ArgusEdr.Model.Event

/-!
# The incident correlator of an agent (`internal/detect/correlate.go`)

The correlator adds up, for every process, the risk of its alerts, as long as no more than the window
passes between two of them, and opens one incident when the sum reaches the threshold. A process state
is shared: `stateFor` puts it into the table and `Observe` goes on writing to it, whether or not the
sweep has taken it out again. `observeWith` is `Observe` with the sweep left open.
-/

namespace ArgusEdr.Correlate

open Go (Formatted)
open Model

/-- `severityScores`, with the zero of a missing entry. -/
def severityScores : Severity → ℤ
  | .low => 10
  | .medium => 25
  | .high => 50
  | .critical => 80
  | .unset => 0

def maxTrackedProcesses : ℕ := 16384

/-- `procState`. The techniques are the keys of the source's map to `true`. -/
structure ProcState where
  score : ℤ := 0
  techniques : Finset String := ∅
  ruleIDs : List String := []
  first : Time
  last : Time
  opened : Bool := false
deriving DecidableEq

inductive IncidentStatus where
  | incidentOpen
deriving Repr, DecidableEq

structure Incident where
  id : Formatted
  host : String
  processKey : String
  riskScore : ℤ
  techniques : List String
  ruleIDs : List String
  firstSeen : Time
  lastSeen : Time
  status : IncidentStatus
  summary : Formatted
deriving Repr, DecidableEq

structure Correlator where
  window : ℤ
  threshold : ℤ
  states : Std.ExtTreeMap String ProcState := {}

def newCorrelator (window threshold : ℤ) : Correlator := { window, threshold }

/-- The arguments of one call of `Observe`, with what the clock shows then. -/
structure Observation where
  event : Event
  alerts : List Alert
  clock : Time := 0

/-- `eventTime`: an event without a time happens now. -/
def Observation.time (o : Observation) : Time :=
  if o.event.timestamp = 0 then o.clock else o.event.timestamp

def Observation.key (o : Observation) : String := o.event.processKey

def scoreOf (alert : Alert) : ℤ :=
  if 0 < alert.riskScore then alert.riskScore else severityScores alert.severity

def ProcState.add (state : ProcState) (alert : Alert) : ProcState :=
  { state with
    score := state.score + scoreOf alert
    techniques := insert alert.technique.id state.techniques
    ruleIDs := state.ruleIDs ++ [alert.ruleID] }

def dedupeStrings (values : List String) : List String :=
  values.foldl (fun out v => if v ∈ out then out else out ++ [v]) []

def buildIncident (event : Event) (state : ProcState) : Incident :=
  let techniques := (state.techniques.erase "").sort (· ≤ ·)
  { id := { format := "INC-%s-%d", args := [event.host, toString (Time.unixNano state.first)] }
    host := event.host
    processKey := event.processKey
    riskScore := state.score
    techniques := techniques
    ruleIDs := dedupeStrings state.ruleIDs
    firstSeen := state.first
    lastSeen := state.last
    status := .incidentOpen
    summary :=
      { format := "process %s (pid %d) accumulated risk %d across %d techniques"
        args := [event.process.name, Go.formatUint event.process.pid.toNat, toString state.score,
          Go.formatUint techniques.length] } }

/-- The loop of `Observe` over the alerts, and the time it leaves. -/
def ProcState.addAll (state : ProcState) (o : Observation) : ProcState :=
  { o.alerts.foldl ProcState.add state with last := o.time }

/-- `Observe` on the state `stateFor` has found. -/
def ProcState.observe (threshold : ℤ) (state : ProcState) (o : Observation) :
    ProcState × Option Incident :=
  let added := state.addAll o
  if added.opened ∨ added.score < threshold then (added, none)
  else
    let opened := { added with opened := true }
    (opened, some (buildIncident o.event opened))

def Correlator.sweep (c : Correlator) (now : Time) : Correlator :=
  if c.states.size ≤ maxTrackedProcesses then c
  else
    { c with states := c.states.filter fun _ state => !decide (c.window < Time.sub now state.last) }

def Correlator.stateFor (sweep : Correlator → Time → Correlator) (c : Correlator) (key : String)
    (now : Time) : Correlator × ProcState :=
  -- a new entry is in the table when it is swept
  let fresh : ProcState := { first := now, last := now }
  let restarted := sweep { c with states := c.states.insert key fresh } now
  match c.states[key]? with
  | none => (restarted, fresh)
  | some state => if c.window < Time.sub now state.last then (restarted, fresh) else (c, state)

/-- `Observe`, over the given sweep. What it writes to the state is seen in the table only if the
state is still in it. -/
def Correlator.observeWith (sweep : Correlator → Time → Correlator) (c : Correlator)
    (o : Observation) : Correlator × Option Incident :=
  if o.alerts = [] then (c, none)
  else
    let (c', state) := c.stateFor sweep o.key o.time
    let (state', incident) := state.observe c.threshold o
    ({ c' with states := c'.states.modify o.key fun _ => state' }, incident)

def Correlator.observe : Correlator → Observation → Correlator × Option Incident :=
  Correlator.observeWith Correlator.sweep

def Correlator.observeUnswept : Correlator → Observation → Correlator × Option Incident :=
  Correlator.observeWith fun c _ => c

end ArgusEdr.Correlate
