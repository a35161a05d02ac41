import ArgusEdr.Lib.Pool
import ArgusEdr.Server.Soar

/-!
# The playbook engine at work (`server/soar`)

The engine over whole runs: alerts start `Observe`s that run beside each other, while playbooks are
created, changed, deleted and tested, and the engine is switched on and off. What a step asks of the
notifier, of the case store and of the commander is a `Call`; `issued` says which call a step makes
and `perform` what comes of it.
-/

namespace ArgusEdr.Soar

open Go (Unicode)

/-! ## Calls -/

inductive Call where
  | notify (notification : Notification)
  | openCase (input : Cases.CreateInput)
  | enqueue (agentID : String) (cmd : Store.Command)
deriving Repr, DecidableEq

def notificationOf (alert : AlertInfo) : Notification where
  title := alert.ruleName
  severity := alert.severity
  host := alert.hostname
  ruleID := alert.ruleID
  technique := alert.techniqueID
  summary := { format := "risk %d on %s", args := [toString alert.riskScore, alert.hostname] }

def caseOf (alert : AlertInfo) : Cases.CreateInput where
  title := if alert.ruleName = "" then "Incident on " ++ alert.hostname else alert.ruleName
  severity := alert.severity
  host := alert.hostname
  evidence := if alert.alertID = "" then [] else [alert.alertID]

section
variable (deps : Deps)

def notified (alert : AlertInfo) : Option Call :=
  deps.notifier.map fun _ => .notify (notificationOf alert)

def opened (alert : AlertInfo) : Option Call :=
  if deps.cases then some (.openCase (caseOf alert)) else none

def commanded (agentID kind argument : String) : Option Call :=
  if deps.commander ∧ argument ≠ "" then some (.enqueue agentID { kind, argument }) else none

def issued (step : Step) (alert : AlertInfo) (dryRun : Bool) : Option Call :=
  if dryRun ∧ ¬readOnly step.type then none
  else if step.type = stepNotify then notified deps alert
  else if step.type = stepOpenCase then opened deps alert
  -- a hunt only reads the event lake
  else if step.type = stepRunHunt then none
  else if step.type = stepKill then
    commanded deps alert.agentID "KILL_PROCESS" (Go.formatUint alert.pid.toNat)
  else if step.type = stepQuarantine then
    commanded deps alert.agentID "QUARANTINE" alert.destinationIP
  else none

end

def perform (u : Unicode) (env : Env) (p : Platform) : Call → Platform
  | .notify notification => { p with notifications := p.notifications ++ [notification] }
  | .openCase input =>
    match p.cases.create u env.now input with
    | .error _ => p
    | .ok (cases, _) => { p with cases }
  | .enqueue agentID cmd => { p with store := (p.store.enqueueCommand agentID cmd).1 }

/-! ## The engine -/

/-- The platform with the `Observe`s started so far, in the order they were started. -/
structure Engine where
  platform : Platform
  observers : List Observer := []

def Engine.start (store : Store) (cases : Cases.Memory) (playbooks : PlaybookStore)
    (enabled : Bool) : Engine where
  platform := { store, cases, playbooks, enabled }

inductive Event where
  /-- an alert starts an `Observe` -/
  | observe (alert : AlertInfo)
  /-- `Observe` number `n` takes its next step -/
  | advance (n : ℕ) (env : Env)
  | test (playbookID : String) (alert : AlertInfo) (env : Env)
  | create (now : Model.Time) (playbook : Playbook)
  | update (now : Model.Time) (id : String) (change : Playbook)
  | delete (id : String)
  | setEnabled (on : Bool)
  /-- others, such as agents and analysts, change the fleet state and the cases -/
  | others (store : Store) (cases : Cases.Memory)

section
variable (u : Unicode) (deps : Deps)

def Engine.setPlaybooks (w : Engine) (playbooks : PlaybookStore) : Engine :=
  { w with platform := { w.platform with playbooks } }

def Engine.step (w : Engine) : Event → Engine
  | .observe alert => { w with observers := w.observers ++ [.checking alert] }
  | .advance n env =>
    let (platform, observers) := Pool.advanceAt (Soar.advance u deps env) w.platform w.observers n
    { platform, observers }
  | .test playbookID alert env =>
    match Soar.test u deps env w.platform playbookID alert with
    | .error _ => w
    | .ok (platform, _) => { w with platform }
  | .create now playbook =>
    match w.platform.playbooks.create now playbook with
    | .error _ => w
    | .ok (playbooks, _) => w.setPlaybooks playbooks
  | .update now id change =>
    match w.platform.playbooks.update now id change with
    | .error _ => w
    | .ok (playbooks, _) => w.setPlaybooks playbooks
  | .delete id =>
    match w.platform.playbooks.delete id with
    | none => w
    | some playbooks => w.setPlaybooks playbooks
  | .setEnabled on => { w with platform := { w.platform with enabled := on } }
  | .others store cases => { w with platform := { w.platform with store, cases } }

/-! ## What is said about it -/

def Observer.call : Observer → Option Call
  | .running alert playbook (step :: _) _ _ => issued deps step alert (isDryRun playbook.1 false)
  | .running _ _ [] _ _ | .checking _ | .listing _ | .choosing .. | .done => none

def Observer.finished : Observer → Option RunRecord
  | .running _ _ [] run _ => some run
  | .running _ _ (_ :: _) _ _ | .checking _ | .listing _ | .choosing .. | .done => none

def Engine.calls (w : Engine) : Event → List Call
  | .advance n _ => (w.observers[n]?.bind (Observer.call deps)).toList
  | .test playbookID alert _ =>
    match w.platform.playbooks.get playbookID with
    | none => []
    | some playbook =>
      playbook.steps.filterMap fun step => issued deps step alert (isDryRun playbook true)
  | .observe _ | .create .. | .update .. | .delete _ | .setEnabled _ | .others .. => []

def Engine.recorded (w : Engine) : Event → List RunRecord
  | .advance n _ => (w.observers[n]?.bind Observer.finished).toList
  | .test playbookID alert env =>
    match Soar.test u deps env w.platform playbookID alert with
    | .error _ => []
    | .ok (_, run) => [run]
  | .observe _ | .create .. | .update .. | .delete _ | .setEnabled _ | .others .. => []

/-- `Runs`: the run history, newest first. -/
def Engine.runs (w : Engine) : List RunRecord := w.platform.runs.reverse

/-- What the engine reaches through its collaborators. -/
def Platform.outside (p : Platform) : Store × Cases.Memory × List Notification :=
  (p.store, p.cases, p.notifications)

def Event.env : Event → Env
  | .advance _ env | .test _ _ env => env
  | .observe _ | .create .. | .update .. | .delete _ | .setEnabled _ | .others .. => {}

def Engine.ActsByCalls (w : Engine) (e : Event) : Prop :=
  (∀ store cases, e ≠ .others store cases) →
    (w.step u deps e).platform.outside =
      ((w.calls deps e).foldl (perform u e.env) w.platform).outside

def Starts (n : ℕ) (alert : AlertInfo) (w : Engine) (e : Event) : Prop :=
  e = .observe alert ∧ w.observers.length = n

/-- `Observe` number `n` reads the switch, which is on. -/
def BeginsEnabled (n : ℕ) (alert : AlertInfo) (w : Engine) (e : Event) : Prop :=
  (∃ env, e = .advance n env) ∧ w.observers[n]? = some (.checking alert) ∧ w.platform.enabled = true

/-- `Observe` number `n` takes the list of the playbooks stored, with this one on it. -/
def Lists (n : ℕ) (alert : AlertInfo) (playbook : Stored) (w : Engine) (e : Event) : Prop :=
  (∃ env, e = .advance n env) ∧ w.observers[n]? = some (.listing alert) ∧
    playbook ∈ w.platform.playbooks.list

end

end ArgusEdr.Soar
