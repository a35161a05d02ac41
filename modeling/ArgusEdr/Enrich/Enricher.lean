import ArgusEdr.Decode.Wire
import ArgusEdr.Lib.Simulation

/-!
# Enrichment (`internal/enrich`)

The process tree follows forks, execs and exits, gives an event its parent and ancestors, and stamps the
start time of a known process on events that carry none. What the other parts of the enricher look up
on the host at that moment (users, containers, files) is given with each event.
-/

namespace ArgusEdr.Enrich

open Go (Bytes)
open Decode (EventType Event)
open Model (Container)

/-! ## The process tree -/

structure ProcInfo where
  ppid : UInt32
  name : Bytes
  exe : Bytes := []
  startNs : UInt64
deriving Repr, DecidableEq

structure ProcessTree where
  procs : Std.ExtTreeMap UInt32 ProcInfo := ∅
  maxDepth : ℕ := 16

def startOf (event : Event) : UInt64 :=
  if event.process.startTimeNs ≠ 0 then event.process.startTimeNs else event.monotonicNs

namespace ProcessTree

/-- The lifecycle events, the first part of `Enrich`. -/
def update (t : ProcessTree) (event : Event) : ProcessTree :=
  let process := event.process
  match event.type with
  | .exec | .execBlocked =>
    let info : ProcInfo :=
      { ppid := process.ppid, name := process.name, exe := process.executable,
        startNs := startOf event }
    { t with procs := t.procs.insert process.pid info }
  | .fork =>
    -- the child runs its parent's program until it executes one
    let info : ProcInfo :=
      { ppid := process.ppid, name := process.name, startNs := startOf event }
    { t with procs := t.procs.insert process.pid info }
  | .exit => { t with procs := t.procs.erase process.pid }
  | _ => t

def ancestryFrom (t : ProcessTree) (pid : UInt32) : ℕ → UInt32 → List Bytes
  | 0, _ => []
  | depth + 1, current =>
    -- the pid stops a walk that comes back to the process
    if current = 0 ∨ current = pid then []
    else
      match t.procs[current]? with
      | none => []
      | some info => info.name :: ancestryFrom t pid depth info.ppid

def ancestry (t : ProcessTree) (pid ppid : UInt32) : List Bytes :=
  t.ancestryFrom pid t.maxDepth ppid

def stamp (t : ProcessTree) (event : Event) : UInt64 :=
  match t.procs[event.process.pid]? with
  | some self =>
    if event.process.startTimeNs = 0 then self.startNs else event.process.startTimeNs
  | none => event.process.startTimeNs

/-- What `Enrich` writes into an event once the tree is updated. -/
def annotate (t : ProcessTree) (event : Event) : Event :=
  let parent := t.procs[event.process.ppid]?
  { event with
    process :=
      { event.process with
        parentName := (parent.map ProcInfo.name).getD event.process.parentName
        parentExecutable := (parent.map ProcInfo.exe).getD event.process.parentExecutable
        startTimeNs := t.stamp event
        ancestors := t.ancestry event.process.pid event.process.ppid } }

def enrich (t : ProcessTree) (event : Event) : ProcessTree × Event :=
  (t.update event, (t.update event).annotate event)

end ProcessTree

/-! ## The enricher -/

structure Options where
  processTree : Bool := false
  resolveUsers : Bool := false
  containerAware : Bool := false
  hashExecutables : Bool := false
  yara : Bool := false

/-- What the host answers when an event is enriched: the name of its user, the container of its
process, the hash and the YARA matches of its executable, and whether a standard stream of the
process is a socket. -/
structure Findings where
  userName : String := ""
  container : Container := {}
  sha256 : String := ""
  yaraMatches : List String := []
  stdioIsSocket : Bool := false

structure Observed where
  event : Event
  found : Findings := {}

def shellNames : List String := ["sh", "bash", "dash", "zsh", "ksh", "ash"]

def isShell (name : Bytes) : Bool := (shellNames.map Go.utf8).contains name

def isExec (event : Event) : Bool := event.type = .exec ∨ event.type = .execBlocked

section
variable (opts : Options) (found : Findings)

def resolveUser (event : Event) : Event :=
  if opts.resolveUsers ∧ event.user.name = "" then
    { event with user := { event.user with name := found.userName } }
  else event

def resolveContainer (event : Event) : Event :=
  if opts.containerAware ∧ event.container.id = "" then { event with container := found.container }
  else event

def hashExecutable (event : Event) : Event :=
  if opts.hashExecutables ∧ isExec event ∧ event.process.executable ≠ [] ∧
      event.process.sha256 = "" then
    { event with process := { event.process with sha256 := found.sha256 } }
  else event

def scanExecutable (event : Event) : Event :=
  if opts.yara ∧ isExec event ∧ event.process.executable ≠ [] ∧ event.process.yaraMatches = [] then
    { event with process := { event.process with yaraMatches := found.yaraMatches } }
  else event

def markStdioSocket (event : Event) : Event :=
  if event.type ≠ .exec ∨ event.process.stdioSocket ∨ ¬ isShell event.process.name then event
  else { event with process := { event.process with stdioSocket := found.stdioIsSocket } }

/-- The parts of `Enrich` behind the tree. -/
def lookUp (event : Event) : Event :=
  markStdioSocket found (scanExecutable opts found (hashExecutable opts found
    (resolveContainer opts found (resolveUser opts found event))))

end

def enrich (opts : Options) (t : ProcessTree) (o : Observed) : ProcessTree × Event :=
  if opts.processTree then
    ((t.enrich o.event).1, lookUp opts o.found (t.enrich o.event).2)
  else (t, lookUp opts o.found o.event)

end ArgusEdr.Enrich
