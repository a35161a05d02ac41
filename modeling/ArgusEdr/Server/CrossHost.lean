import ArgusEdr.Lib.Simulation
import ArgusEdr.Server.Store

/-!
# Correlation across hosts (`server/correlate/crosshost.go`)

For every technique and every destination the correlator keeps the hosts that have raised an alert for
it, and raises one signal when there are enough of them. What it keeps for a key starts over once the
window has passed since its first alert; single hosts are dropped once it has passed since theirs. At
most once per window an alert makes it sweep both indexes, and a full index takes no new keys.
-/

namespace ArgusEdr.CrossHost

open Go (Formatted)
open Model
open Store (AlertRecord)

inductive Kind where
  | lateralMovement
  | c2FanIn
deriving Repr, DecidableEq

def Kind.key : Kind → AlertRecord → String
  | .lateralMovement, record => record.techniqueID
  | .c2FanIn, record => record.destinationIP

def maxTrackedKeys : ℕ := 100000

structure Signal where
  kind : Kind
  key : String
  hosts : List String
  firstSeen : Time
  lastSeen : Time
  summary : Formatted
deriving Repr, DecidableEq

abbrev Hosts := Std.ExtTreeMap String Time

structure HostWindow where
  hosts : Hosts := {}
  first : Time
  fired : Bool := false

abbrev Index := Std.ExtTreeMap String HostWindow

structure Correlator where
  window : ℤ
  minHosts : ℤ
  byTechnique : Index := {}
  byDest : Index := {}
  lastSweep : Time := 0

def newCrossHost (window minHosts : ℤ) : Correlator := { window, minHosts }

/-- The argument of one call of `Observe`, with what the clock shows then. -/
structure Observation where
  record : AlertRecord
  clock : Time := 0

/-- `timeOf`: an alert without a time happens now. -/
def Observation.time (o : Observation) : Time :=
  if o.record.time = 0 then o.clock else o.record.time

def pruneExpired (hosts : Hosts) (now : Time) (window : ℤ) : Hosts :=
  hosts.filter fun _ seen => !decide (window < Time.sub now seen)

def sortedKeys (hosts : Hosts) : List String := hosts.keys

def summarize (kind : Kind) (key : String) (hosts : List String) : Formatted :=
  let joined := String.intercalate ", " hosts
  match kind with
  | .lateralMovement =>
    { format := "technique %s seen on %d hosts: %s"
      args := [key, Go.formatUint hosts.length, joined] }
  | .c2FanIn =>
    { format := "%d hosts contacted %s: %s", args := [Go.formatUint hosts.length, key, joined] }

def sweep (window : ℤ) (index : Index) (now : Time) : Index :=
  index.filterMap fun _ w =>
    let hosts := pruneExpired w.hosts now window
    if hosts.isEmpty then none else some { w with hosts }

/-- `track` from the point where it has the window of the key. -/
def HostWindow.hit (window minHosts : ℤ) (kind : Kind) (key host : String) (now : Time)
    (w : HostWindow) : HostWindow × Option Signal :=
  let hosts := pruneExpired (w.hosts.insert host now) now window
  -- a window fires once
  if w.fired ∨ (hosts.size : ℤ) < minHosts then ({ w with hosts }, none)
  else
    let names := sortedKeys hosts
    ({ w with hosts, fired := true },
      some
        { kind, key, hosts := names, firstSeen := w.first, lastSeen := now
          summary := summarize kind key names })

/-- The rest of `track`, on the index the window of the key is kept in. -/
def hitIn (window minHosts : ℤ) (kind : Kind) (key host : String) (now : Time) (index : Index)
    (w : HostWindow) : Index × Option Signal :=
  let (w', signal) := w.hit window minHosts kind key host now
  (index.insert key w', signal)

def track (window minHosts : ℤ) (index : Index) (key host : String) (now : Time) (kind : Kind) :
    Index × Option Signal :=
  let fresh : HostWindow := { first := now }
  match index[key]? with
  | none =>
    if maxTrackedKeys ≤ index.size then
      -- what has run out makes room, or the alert is not tracked
      let swept := sweep window index now
      if maxTrackedKeys ≤ swept.size then (swept, none)
      else hitIn window minHosts kind key host now swept fresh
    else hitIn window minHosts kind key host now index fresh
  | some w =>
    -- a window ends with its first alert's time, whoever has been seen since
    if window < Time.sub now w.first then hitIn window minHosts kind key host now index fresh
    else hitIn window minHosts kind key host now index w

def Correlator.index (c : Correlator) : Kind → Index
  | .lateralMovement => c.byTechnique
  | .c2FanIn => c.byDest

def Correlator.sweepExpired (c : Correlator) (now : Time) : Correlator :=
  if c.lastSweep ≠ 0 ∧ Time.sub now c.lastSweep < c.window then c
  else
    { c with
      byTechnique := sweep c.window c.byTechnique now
      byDest := sweep c.window c.byDest now
      lastSweep := now }

/-- `Observe` for one kind: an alert without a key is not tracked. -/
def Correlator.trackKind (c : Correlator) (o : Observation) (kind : Kind) : Index × Option Signal :=
  if kind.key o.record = "" then (c.index kind, none)
  else track c.window c.minHosts (c.index kind) (kind.key o.record) o.record.hostname o.time kind

def Correlator.observe (c : Correlator) (o : Observation) : Correlator × List Signal :=
  let c := c.sweepExpired o.time
  let (byTechnique, lateral) := c.trackKind o .lateralMovement
  let (byDest, fanIn) := c.trackKind o .c2FanIn
  ({ c with byTechnique, byDest }, lateral.toList ++ fanIn.toList)

end ArgusEdr.CrossHost
