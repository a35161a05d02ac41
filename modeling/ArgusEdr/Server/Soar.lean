import ArgusEdr.Server.Cases
import ArgusEdr.Server.Store

/-!
# Response playbooks (`server/soar`)

A playbook is a trigger and a list of steps. `Observe` runs every stored playbook that is not off and
whose trigger matches an alert; in dry-run a step with side effects is only described. The store holds
validated playbooks only. The engine works on the rest of the platform through adapters: `Platform` is
what they reach, together with the engine's own state.

An `Observe` runs beside the requests that change the playbooks and the engine's switch: `advance` is the
next atomic step of an `Observer`.
-/

namespace ArgusEdr.Soar

open Go (Formatted Unicode)

/-! ## Playbooks -/

def modeOff := "off"
def modeDryRun := "dry-run"
def modeEnforce := "enforce"

def stepNotify := "notify"
def stepOpenCase := "open_case"
def stepRunHunt := "run_hunt"
def stepKill := "kill_process"
def stepQuarantine := "quarantine"

def validMode (mode : String) : Bool := mode ∈ [modeOff, modeDryRun, modeEnforce]

def validStepType (type : String) : Bool :=
  type ∈ [stepNotify, stepOpenCase, stepRunHunt, stepKill, stepQuarantine]

/-- A step without side effects runs in a dry-run too. -/
def readOnly (type : String) : Bool := type = stepRunHunt

structure AlertInfo where
  alertID : String := ""
  agentID : String := ""
  hostname : String := ""
  ruleID : String := ""
  ruleName : String := ""
  severity : String := ""
  techniqueID : String := ""
  pid : UInt32 := 0
  destinationIP : String := ""
  riskScore : ℤ := 0
  isIncident : Bool := false
deriving Repr, DecidableEq

/-- Which alerts a playbook reacts to; an empty field does not restrict. -/
structure Trigger where
  ruleIDs : List String := []
  severities : List String := []
  techniques : List String := []
  minRisk : ℤ := 0
  incidentsOnly : Bool := false
deriving Repr, DecidableEq

def Trigger.matches (u : Unicode) (t : Trigger) (alert : AlertInfo) : Bool :=
  (!t.incidentsOnly || alert.isIncident) &&
  !decide (alert.riskScore < t.minRisk) &&
  (t.ruleIDs.isEmpty || t.ruleIDs.contains alert.ruleID) &&
  (t.severities.isEmpty || t.severities.any fun s => Go.equalFold u s alert.severity) &&
  (t.techniques.isEmpty || t.techniques.contains alert.techniqueID)

structure Step where
  type : String
  query : String := ""
deriving Repr, DecidableEq

structure Playbook where
  id : String := ""
  name : String
  mode : String := ""
  trigger : Trigger := {}
  steps : List Step
  created : Model.Time := 0
  updated : Model.Time := 0
deriving Repr, DecidableEq

/-- The loop of `validate` over the steps, from the `i`-th on. -/
def validateSteps : ℕ → List Step → Except Go.Error Unit
  | _, [] => .ok ()
  | i, step :: steps =>
    if ¬validStepType step.type then
      .error (.errorf "step %d: unknown type %q" [toString i, step.type])
    else if step.type = stepRunHunt ∧ Go.trimSpace step.query = "" then
      .error (.errorf "step %d: run_hunt needs a query" [toString i])
    else validateSteps (i + 1) steps

def Playbook.validate (p : Playbook) : Except Go.Error Unit :=
  if Go.trimSpace p.name = "" then .error (.errorf "a playbook needs a name" [])
  else if ¬validMode p.mode then
    .error (.errorf "invalid mode %q (want off|dry-run|enforce)" [p.mode])
  else if p.steps.isEmpty then .error (.errorf "a playbook needs at least one step" [])
  else validateSteps 0 p.steps

def Stored := { p : Playbook // p.validate = .ok () }

structure PlaybookStore where
  seq : ℕ := 0
  byID : Std.ExtTreeMap String Stored := {}

namespace PlaybookStore

/-- The mode a playbook is taken to have when it states none. -/
def defaulted (p : Playbook) : Playbook :=
  if p.mode = "" then { p with mode := modeDryRun } else p

def create (s : PlaybookStore) (now : Model.Time) (playbook : Playbook) :
    Except Go.Error (PlaybookStore × Playbook) :=
  let playbook := defaulted playbook
  match h : playbook.validate with
  | .error err => .error err
  | .ok () =>
    let id := "PB-" ++ Go.pad4 (s.seq + 1)
    -- the id and the times are not validated
    let stored : Stored := ⟨{ playbook with id, created := now, updated := now }, h⟩
    .ok ({ seq := s.seq + 1, byID := s.byID.insert id stored }, stored.1)

def get (s : PlaybookStore) (id : String) : Option Playbook := (s.byID[id]?).map Subtype.val

def list (s : PlaybookStore) : List Stored := s.byID.values

def update (s : PlaybookStore) (now : Model.Time) (id : String) (change : Playbook) :
    Except Go.Error (PlaybookStore × Playbook) :=
  let change := defaulted change
  match h : change.validate with
  | .error err => .error err
  | .ok () =>
    match s.byID[id]? with
    | none => .error (.errorf "playbook %q not found" [id])
    | some existing =>
      let stored : Stored :=
        ⟨{ change with id := existing.1.id, created := existing.1.created, updated := now }, h⟩
      .ok ({ s with byID := s.byID.insert id stored }, stored.1)

def delete (s : PlaybookStore) (id : String) : Option PlaybookStore :=
  match s.byID[id]? with
  | none => none
  | some _ => some { s with byID := s.byID.erase id }

end PlaybookStore

/-! ## The engine -/

structure StepOutcome where
  type : String
  detail : Formatted := { format := "" }
  executed : Bool
  error : Option Go.Error := none
deriving Repr, DecidableEq

structure RunRecord where
  time : Model.Time
  playbookID : String
  playbook : String
  alertID : String
  mode : String
  outcomes : List StepOutcome := []
deriving Repr, DecidableEq

structure Notification where
  title : String
  severity : String
  host : String
  ruleID : String
  technique : String
  summary : Formatted
deriving Repr, DecidableEq

/-- The collaborators the engine was built with: the notifier by its name, and whether there
are a case store, a commander and a hunter. -/
structure Deps where
  notifier : Option String := none
  cases : Bool := true
  commander : Bool := true
  hunter : Bool := true
deriving Repr, DecidableEq

/-- What the engine and its adapters hold. -/
structure Platform where
  store : Store
  cases : Cases.Memory := {}
  playbooks : PlaybookStore := {}
  enabled : Bool := false
  runs : List RunRecord := []
  notifications : List Notification := []

/-- What the outside answers during one step: the time, the notifier, and the hunt of a query
over the event lake. -/
structure Env where
  now : Model.Time := 0
  notify : Except Go.Error Unit := .ok ()
  hunt : String → Except Go.Error ℕ := fun _ => .error (.errorf "event lake not configured" [])

def maxRuns := 200

/-- Keeps the most recent runs. -/
def Platform.record (p : Platform) (run : RunRecord) : Platform :=
  let runs := p.runs ++ [run]
  { p with runs := runs.drop (runs.length - maxRuns) }

section
variable (u : Unicode) (deps : Deps) (env : Env)

def doNotify (p : Platform) (alert : AlertInfo) : Platform × StepOutcome :=
  match deps.notifier with
  | none =>
    (p, { type := stepNotify, executed := false, detail := { format := "no notifier configured" } })
  | some name =>
    let notification : Notification :=
      { title := alert.ruleName
        severity := alert.severity
        host := alert.hostname
        ruleID := alert.ruleID
        technique := alert.techniqueID
        summary :=
          { format := "risk %d on %s", args := [toString alert.riskScore, alert.hostname] } }
    let detail : Formatted := { format := "notified %s", args := [name] }
    -- handed to the notifier, whatever it makes of it
    let p' := { p with notifications := p.notifications ++ [notification] }
    match env.notify with
    | .error err => (p', { type := stepNotify, executed := false, detail, error := some err })
    | .ok () => (p', { type := stepNotify, executed := true, detail })

def doOpenCase (p : Platform) (alert : AlertInfo) : Platform × StepOutcome :=
  if ¬deps.cases then
    (p,
      { type := stepOpenCase
        executed := false
        detail := { format := "no case store configured" } })
  else
    let title := if alert.ruleName = "" then "Incident on " ++ alert.hostname else alert.ruleName
    let evidence := if alert.alertID = "" then [] else [alert.alertID]
    match p.cases.create u env.now
      { title, severity := alert.severity, host := alert.hostname, evidence } with
    | .error err => (p, { type := stepOpenCase, executed := false, error := some err })
    | .ok (cases, c) =>
      ({ p with cases },
        { type := stepOpenCase
          executed := true
          detail := { format := "opened case %s", args := [c.id] } })

def doRunHunt (query : String) : StepOutcome :=
  if ¬deps.hunter then
    { type := stepRunHunt
      executed := false
      detail := { format := "no hunt backend configured" } }
  else
    match env.hunt query with
    | .error err => { type := stepRunHunt, executed := false, error := some err }
    | .ok count =>
      { type := stepRunHunt
        executed := true
        detail :=
          { format := "hunt %q matched %d event(s)", args := [query, toString count] } }

def stepForKind (kind : String) : String :=
  if kind = "QUARANTINE" then stepQuarantine else stepKill

def doCommand (p : Platform) (agentID kind argument : String) (detail : Formatted) :
    Platform × StepOutcome :=
  let type := stepForKind kind
  if ¬deps.commander then
    (p, { type, executed := false, detail := { format := "no commander configured" } })
  -- a pid always prints, so only a quarantine can be without a target
  else if argument = "" then
    (p,
      { type
        executed := false
        detail
        error := some (.errorf "missing target (no pid or destination on the alert)" []) })
  else
    match p.store.enqueueCommand agentID { kind, argument } with
    | (store, true) => ({ p with store }, { type, executed := true, detail })
    | (store, false) =>
      ({ p with store },
        { type, executed := false, detail, error := some (.errorf "unknown agent %s" [agentID]) })

/-- What a dry-run says of a step it does not take. -/
def describe (step : Step) (alert : AlertInfo) : Formatted :=
  if step.type = stepNotify then { format := "notify on %s", args := [alert.ruleID] }
  else if step.type = stepOpenCase then
    { format := "open a case for %s", args := [alert.hostname] }
  else if step.type = stepKill then
    { format := "ask %s to kill pid %s"
      args := [alert.hostname, Go.formatUint alert.pid.toNat] }
  else if step.type = stepQuarantine then
    { format := "quarantine %s on %s", args := [alert.destinationIP, alert.hostname] }
  else { format := "%s", args := [step.type] }

def would (detail : Formatted) : Formatted := { detail with format := "would " ++ detail.format }

def executeStep (p : Platform) (step : Step) (alert : AlertInfo) (dryRun : Bool) :
    Platform × StepOutcome :=
  if dryRun ∧ ¬readOnly step.type then
    (p, { type := step.type, detail := would (describe step alert), executed := false })
  else if step.type = stepNotify then doNotify deps env p alert
  else if step.type = stepOpenCase then doOpenCase u deps env p alert
  else if step.type = stepRunHunt then (p, doRunHunt deps env step.query)
  else if step.type = stepKill then
    doCommand deps p alert.agentID "KILL_PROCESS" (Go.formatUint alert.pid.toNat)
      { format := "kill pid %s", args := [Go.formatUint alert.pid.toNat] }
  else if step.type = stepQuarantine then
    doCommand deps p alert.agentID "QUARANTINE" alert.destinationIP
      { format := "quarantine %s", args := [alert.destinationIP] }
  else
    (p,
      { type := step.type
        detail := { format := "unknown step" }
        executed := false
        error := some (.errorf "unknown step type" []) })

def isDryRun (playbook : Playbook) (force : Bool) : Bool := force || playbook.mode ≠ modeEnforce

def newRun (playbook : Playbook) (alert : AlertInfo) (force : Bool) : RunRecord where
  time := env.now
  playbookID := playbook.id
  playbook := playbook.name
  alertID := alert.alertID
  mode := if force then modeDryRun else playbook.mode

def runSteps (alert : AlertInfo) (dryRun : Bool) :
    Platform → List Step → Platform × List StepOutcome
  | p, [] => (p, [])
  | p, step :: steps =>
    let (p', outcome) := executeStep u deps env p step alert dryRun
    let (p'', outcomes) := runSteps alert dryRun p' steps
    (p'', outcome :: outcomes)

def test (p : Platform) (playbookID : String) (alert : AlertInfo) :
    Except Go.Error (Platform × RunRecord) :=
  match p.playbooks.get playbookID with
  | none => .error (.errorf "playbook %q not found" [playbookID])
  | some playbook =>
    let (p', outcomes) := runSteps u deps env alert (isDryRun playbook true) p playbook.steps
    let run := { newRun env playbook alert true with outcomes }
    .ok (p'.record run, run)

inductive Observer where
  /-- read the engine's switch -/
  | checking (alert : AlertInfo)
  /-- take the list of playbooks -/
  | listing (alert : AlertInfo)
  /-- go on with the next playbook of the list -/
  | choosing (alert : AlertInfo) (todo : List Stored)
  /-- execute the next step of a playbook, or record the run -/
  | running (alert : AlertInfo) (playbook : Stored) (steps : List Step) (run : RunRecord)
      (todo : List Stored)
  | done

def advance (p : Platform) : Observer → Platform × Observer
  -- the switch is read once; turned off later, it does not stop an `Observe` in progress
  | .checking alert => (p, if p.enabled then .listing alert else .done)
  -- so is the list: what is changed or deleted later is run as it was
  | .listing alert => (p, .choosing alert p.playbooks.list)
  | .choosing _ [] => (p, .done)
  | .choosing alert (playbook :: todo) =>
    if playbook.1.mode = modeOff ∨ ¬playbook.1.trigger.matches u alert then
      (p, .choosing alert todo)
    else (p, .running alert playbook playbook.1.steps (newRun env playbook.1 alert false) todo)
  | .running alert playbook (step :: steps) run todo =>
    let (p', outcome) := executeStep u deps env p step alert (isDryRun playbook.1 false)
    (p', .running alert playbook steps { run with outcomes := run.outcomes ++ [outcome] } todo)
  | .running alert _ [] run todo => (p.record run, .choosing alert todo)
  | .done => (p, .done)

end

end ArgusEdr.Soar
