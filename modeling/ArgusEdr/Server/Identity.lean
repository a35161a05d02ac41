import ArgusEdr.Lib.Runs
import ArgusEdr.Server.Store

/-!
# Agent identity (`server/api`)

Every request of an agent is checked against the certificate the agent enrolled with, or the one an
operator has staged for it. The check is two operations of the store, `Get` and then, for a staged
certificate, `PromoteCert`; between the two, other requests and rotations run. `verdict` is what the check
makes of the answer of `Get`, `authorizeIdentity` the check when nothing runs in between, and `step` the
atomic steps of the service with the requests it has begun to check.
-/

namespace ArgusEdr.Identity

open Store (Agent Stats Backend)

/-- The gRPC codes of the service's errors. -/
inductive Code where
  | notFound | permissionDenied | invalidArgument
deriving Repr, DecidableEq

structure Status where
  code : Code
  message : Go.Error
deriving Repr, DecidableEq

/-- What an identity check has decided: `promoting` is a check that goes on to promote the
certificate it was presented, and then accepts the request whatever came of that. -/
inductive Verdict where
  | accepted (agent : Agent)
  | promoting (agent : Agent)
  | rejected (status : Status)
deriving Repr, DecidableEq

/-- What the identity check makes of the answer of `Get`. -/
def verdict (agentID fingerprint : String) : Option Agent → Verdict
  | none =>
    .rejected { code := .notFound, message := .errorf "unknown agent %q: re-enroll" [agentID] }
  | some agent =>
    -- an empty enrolled fingerprint is an in-process peer without mTLS
    if agent.certFingerprint = "" ∨ fingerprint = agent.certFingerprint then .accepted agent
    else if agent.pendingCertFingerprint ≠ "" ∧ fingerprint = agent.pendingCertFingerprint then
      .promoting agent
    else
      .rejected
        { code := .permissionDenied
          message := .errorf "client certificate does not match the enrolled agent" [] }

def authorizeIdentity (s : Store) (agentID fingerprint : String) :
    Store × Except Status Agent :=
  match verdict agentID fingerprint (s.get agentID) with
  | .accepted agent => (s, .ok agent)
  | .promoting agent => ((s.promoteCert agentID fingerprint).1, .ok (agent.promote fingerprint))
  | .rejected status => (s, .error status)

structure EnrollRequest where
  hostname : String
  agentVersion : String := ""
  kernel : String := ""
  enrollmentToken : String := ""
  peerFingerprint : String
deriving Repr, DecidableEq

def enroll (token : String) (s : Store) (id : String) (now : Model.Time) (req : EnrollRequest) :
    Except Status (Store × Agent) :=
  if token ≠ "" ∧ req.enrollmentToken ≠ token then
    .error { code := .permissionDenied, message := .errorf "invalid enrollment token" [] }
  else if req.hostname = "" then
    .error { code := .invalidArgument, message := .errorf "hostname is required" [] }
  else
    let agent :=
      Store.newAgent id now req.hostname req.agentVersion req.kernel req.peerFingerprint
    .ok (s.enroll agent, agent)

structure Request where
  agentID : String
  fingerprint : String
  verdict : Verdict
deriving Repr, DecidableEq

structure Service where
  token : String
  store : Store
  requests : List Request := []

def start (backend : Backend) (token : String) : Service where
  token := token
  store := .new backend

inductive Event where
  | enroll (id : String) (now : Model.Time) (req : EnrollRequest)
  | setPendingCert (agentID fingerprint : String)
  | get (agentID fingerprint : String)
  | promote (n : ℕ)
  | heartbeat (agentID : String) (now : Model.Time) (stats : Stats)
deriving Repr, DecidableEq

/-- The second step of the check of request `n`, if it has one to make. -/
def promote (s : Service) (n : ℕ) : Service :=
  match s.requests[n]? with
  | none => s
  | some r =>
    match r.verdict with
    | .promoting agent =>
      { s with
        store := (s.store.promoteCert r.agentID r.fingerprint).1
        requests := s.requests.set n { r with verdict := .accepted (agent.promote r.fingerprint) } }
    | .accepted _ | .rejected _ => s

def step (s : Service) : Event → Service
  | .enroll id now req =>
    match enroll s.token s.store id now req with
    | .error _ => s
    | .ok (store, _) => { s with store }
  | .setPendingCert agentID fingerprint =>
    { s with store := (s.store.setPendingCert agentID fingerprint).1 }
  | .get agentID fingerprint =>
    { s with
      requests := s.requests ++
        [{ agentID, fingerprint, verdict := verdict agentID fingerprint (s.store.get agentID) }] }
  | .promote n => promote s n
  | .heartbeat agentID now stats => { s with store := (s.store.heartbeat agentID now stats).1 }

def Service.accepted (s : Service) (n : ℕ) : Bool :=
  match s.requests[n]? with
  | none => false
  | some r => r.verdict matches .accepted _

/-- The id an enrollment draws is not in use: `NewID` is a random 128-bit number. -/
def FreshID (s : Service) : Event → Prop
  | .enroll id _ _ => s.store.get id = none
  | .setPendingCert .. | .get .. | .promote _ | .heartbeat .. => True

instance (s : Service) (e : Event) : Decidable (FreshID s e) := by
  cases e <;> unfold FreshID <;> infer_instance

end ArgusEdr.Identity
