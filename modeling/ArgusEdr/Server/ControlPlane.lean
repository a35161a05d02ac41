import ArgusEdr.Lib.Pool
import ArgusEdr.Server.Admin
import ArgusEdr.Server.Service

/-!
# The control plane (`cmd/argus-server`)

The admin API, the agent-facing service and the playbook engine over one store. An alert an
agent reports is stored, and starts an `Observe` of its own that runs beside everything else
(`recordAlert`). `World` is the whole of it and `step` one event: a request, a call of an agent,
or the next step of one `Observe`.
-/

namespace ArgusEdr.ControlPlane

open Go (Unicode)
open Soar (Observer Platform)
open Admin (Api Request Json)

/-- What the server is started with, besides the tokens of the admin API. -/
structure Config where
  unicode : Unicode
  deps : Soar.Deps := {}
  json : Json
  enrollmentToken : String := ""

structure World where
  api : Api
  observers : List Observer := []

/-- A server with the playbook engine switched by `--soar`; there are no playbooks yet. -/
def start (store : Store) (authz : Admin.Authz) (issuer soar : Bool) : World where
  api := { platform := { store, enabled := soar }, authz, issuer }

inductive Event where
  /-- an admin request -/
  | request (r : Request) (env : Admin.Env)
  /-- an agent enrolls -/
  | enroll (id : String) (now : Model.Time) (req : Identity.EnrollRequest)
  /-- an agent's heartbeat, which takes its commands off the queue -/
  | heartbeat (agentID fingerprint : String) (now : Model.Time) (stats : Store.Stats)
  /-- a report of an enrolled agent, over a stream authorized for it -/
  | report (record : Store.AlertRecord) (newID : String)
  /-- `Observe` number `n` takes its next step -/
  | observe (n : ℕ) (env : Soar.Env)

def World.setStore (w : World) (store : Store) : World :=
  { w with api := { w.api with platform := { w.api.platform with store } } }

/-- `ReportAlerts` and `recordAlert`. The engine is handed the record as the report gave it, so
without the id the store draws. -/
def report (w : World) (record : Store.AlertRecord) (newID : String) : World :=
  let received := { record with id := "" }
  let w' := w.setStore (w.api.platform.store.recordAlert received newID)
  { w' with observers := w'.observers ++ [.checking (Admin.toSoarAlert received)] }

def observe (cfg : Config) (w : World) (n : ℕ) (env : Soar.Env) : World :=
  let (platform, observers) :=
    Pool.advanceAt (Soar.advance cfg.unicode cfg.deps env) w.api.platform w.observers n
  { api := { w.api with platform }, observers }

def step (cfg : Config) (w : World) : Event → World
  | .request r env => { w with api := (Admin.handle cfg.unicode cfg.deps cfg.json w.api r env).1 }
  | .enroll id now req =>
    match Identity.enroll cfg.enrollmentToken w.api.platform.store id now req with
    | .error _ => w
    | .ok (store, _) => w.setStore store
  | .heartbeat agentID fingerprint now stats =>
    w.setStore
      (Service.heartbeatBegin w.api.platform.store agentID fingerprint now stats).1
  | .report record newID =>
    match w.api.platform.store.get record.agentID with
    | none => w
    | some _ => report w record newID
  | .observe n env => observe cfg w n env

/-! ## What is said about it -/

def CarriesToken (authz : Admin.Authz) (r : Request) : Prop :=
  ∃ g ∈ authz.grants, Admin.bearerToken r = some g.token

instance (authz : Admin.Authz) (r : Request) : Decidable (CarriesToken authz r) :=
  inferInstanceAs (Decidable (∃ g ∈ authz.grants, Admin.bearerToken r = some g.token))

def Unauthenticated (w : World) : Event → Prop
  | .request r _ => ¬CarriesToken w.api.authz r
  | .enroll .. | .heartbeat .. | .report .. | .observe .. => True

instance (w : World) : (e : Event) → Decidable (Unauthenticated w e)
  | .request r _ => inferInstanceAs (Decidable (¬CarriesToken w.api.authz r))
  | .enroll .. | .heartbeat .. | .report .. | .observe .. => .isTrue trivial

def isHostAction (cmd : Store.Command) : Bool := cmd.kind = "KILL_PROCESS" || cmd.kind = "QUARANTINE"

/-- The commands to kill or quarantine that wait for an agent. -/
def hostActions (s : Store) (agentID : String) : List Store.Command :=
  (s.queue agentID).filter isHostAction

/-- The event puts no command to kill or quarantine into a queue: what waits after it has been
waiting before, in the same order. -/
def PlacesNoHostAction (cfg : Config) (w : World) (e : Event) : Prop :=
  ∀ agentID, (hostActions (step cfg w e).api.platform.store agentID).Sublist
    (hostActions w.api.platform.store agentID)

/-- A step that asks nothing of the alert's host, even in enforce mode. -/
def HarmlessStep (alert : Soar.AlertInfo) (s : Soar.Step) : Prop :=
  s.type ≠ Soar.stepKill ∧ (s.type = Soar.stepQuarantine → alert.destinationIP = "")

/-- A playbook that asks nothing of the alert's host: it does not enforce, it is not for this
alert, or its steps are harmless. -/
def HarmlessPlaybook (u : Unicode) (alert : Soar.AlertInfo) (p : Soar.Playbook) : Prop :=
  p.mode = Soar.modeEnforce → p.trigger.matches u alert = true → ∀ s ∈ p.steps, HarmlessStep alert s

/-- If the `Observe` is about to take the list of playbooks, all on it are harmless. -/
def ListsHarmless (u : Unicode) (p : Platform) : Observer → Prop
  | .listing alert => ∀ playbook ∈ p.playbooks.list, HarmlessPlaybook u alert playbook.1
  | .checking _ | .choosing .. | .running .. | .done => True

/-- The event is not that of an `Observe` taking up a playbook that acts on a host. -/
def Harmless (cfg : Config) (w : World) : Event → Prop
  | .observe n _ => ∀ o ∈ w.observers[n]?, ListsHarmless cfg.unicode w.api.platform o
  | .request .. | .enroll .. | .heartbeat .. | .report .. => True

instance (alert : Soar.AlertInfo) (s : Soar.Step) : Decidable (HarmlessStep alert s) :=
  inferInstanceAs (Decidable (_ ∧ _))

instance (u : Unicode) (alert : Soar.AlertInfo) (p : Soar.Playbook) :
    Decidable (HarmlessPlaybook u alert p) :=
  inferInstanceAs (Decidable (_ → _ → _))

instance (u : Unicode) (p : Platform) : (o : Observer) → Decidable (ListsHarmless u p o)
  | .listing alert => inferInstanceAs
    (Decidable (∀ playbook ∈ p.playbooks.list, HarmlessPlaybook u alert playbook.1))
  | .checking _ | .choosing .. | .running .. | .done => .isTrue trivial

instance (cfg : Config) (w : World) : (e : Event) → Decidable (Harmless cfg w e)
  | .observe n _ => inferInstanceAs
    (Decidable (∀ o ∈ w.observers[n]?, ListsHarmless cfg.unicode w.api.platform o))
  | .request .. | .enroll .. | .heartbeat .. | .report .. => .isTrue trivial

end ArgusEdr.ControlPlane
