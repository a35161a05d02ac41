import ArgusEdr.Server.Identity
import ArgusEdr.Server.Soar

/-!
# The admin API (`cmd/argus-server`)

`route` is the table of the mux and `handle` what a request does. Three routes are guarded by
`requireRole`; all others run for anyone who can reach the listener. A read-only handler changes
nothing, and its answer is left out.

Request bodies are decoded by the functions of `Json`, one for each type a handler decodes.
-/

namespace ArgusEdr.Admin

open Go (Bytes Formatted Unicode)
open Soar (Platform Playbook RunRecord)

/-! ## Roles (`authz.go`) -/

inductive Role where
  | none | viewer | operator | admin
deriving Repr, DecidableEq

namespace Role

/-- The privilege order. -/
def level : Role → ℕ
  | .none => 0
  | .viewer => 1
  | .operator => 2
  | .admin => 3

def byName : List (String × Role) :=
  [("viewer", .viewer), ("operator", .operator), ("admin", .admin)]

def text (r : Role) : String :=
  match byName.find? fun entry => entry.2 = r with
  | some entry => entry.1
  | Option.none => "none"

end Role

structure Grant where
  token : String
  role : Role
deriving Repr, DecidableEq

structure Authz where
  grants : List Grant := []
deriving Repr, DecidableEq

namespace Authz

def configured (a : Authz) : Bool := !a.grants.isEmpty

/-- The highest role granted to a token: the loop compares every grant. -/
def role (a : Authz) (presented : String) : Role :=
  a.grants.foldl
    (fun best g => if presented = g.token ∧ best.level < g.role.level then g.role else best) .none

def loadEntries (path : String) : ℕ → List (String × String) → Except Go.Error (List Grant)
  | _, [] => .ok []
  | i, (token, role) :: entries =>
    match Role.byName.lookup role with
    | none =>
      .error (.errorf "rbac file %s: tokens[%d] has unknown role %q (want viewer|operator|admin)"
        [path, toString i, role])
    | some granted =>
      if token = "" then
        .error (.errorf "rbac file %s: tokens[%d] has an empty token" [path, toString i])
      else (loadEntries path (i + 1) entries).map ({ token, role := granted } :: ·)

/-- `newAuthz`, given the entries the RBAC file decodes to. -/
def new (adminToken : String) (rbacFile : Option (String × List (String × String))) :
    Except Go.Error Authz :=
  let grants : List Grant :=
    if adminToken ≠ "" then [{ token := adminToken, role := .admin }] else []
  match rbacFile with
  | none => .ok { grants }
  | some (path, entries) =>
    (loadEntries path 0 entries).map fun loaded => { grants := grants ++ loaded }

end Authz

/-! ## Requests and routes -/

/-- An HTTP request: its path is the list of its segments (`/a/` is `a` and an empty one), and
`authorization` the value of that header, empty if there is none. -/
structure Request where
  method : String
  path : List String
  authorization : String := ""
  remoteAddr : String := ""
  body : Bytes := []
deriving Repr, DecidableEq

def bearerToken (r : Request) : Option String := Go.cutPrefix r.authorization "Bearer "

inductive View where
  | health | version | agents | alerts | alertByID (id : String) | triage (id : String)
  | signals | rules | navigator | stream | huntFields | hunt | huntToRule | investigateGraph
  | cases | caseByID (id : String) | caseReport (id : String)
  | soarStatus | soarRuns | playbooks | playbookByID (id : String) | metrics
deriving Repr, DecidableEq

inductive Route where
  | view (v : View)
  | createCase | assignCase (id : String) | caseStatus (id : String) | caseComment (id : String)
  | caseEvidence (id : String)
  | soarEnable
  | createPlaybook | updatePlaybook (id : String) | deletePlaybook (id : String)
  | testPlaybook (id : String)
  | enqueueCommand (id : String) | rotateCert (id : String) | reloadRules
deriving Repr, DecidableEq

def getRoute : List String → Option View
  | ["healthz"] => some .health
  | ["version"] => some .version
  | ["api", "agents"] => some .agents
  | ["api", "alerts"] => some .alerts
  | ["api", "alerts", id] => some (.alertByID id)
  | ["api", "alerts", id, "triage"] => some (.triage id)
  | ["api", "signals"] => some .signals
  | ["api", "rules"] => some .rules
  | ["api", "detections", "navigator"] => some .navigator
  | ["api", "stream"] => some .stream
  | ["api", "hunt", "fields"] => some .huntFields
  | ["api", "investigate", "graph"] => some .investigateGraph
  | ["api", "cases"] => some .cases
  | ["api", "cases", id] => some (.caseByID id)
  | ["api", "cases", id, "report"] => some (.caseReport id)
  | ["api", "soar", "status"] => some .soarStatus
  | ["api", "soar", "runs"] => some .soarRuns
  | ["api", "playbooks"] => some .playbooks
  | ["api", "playbooks", id] => some (.playbookByID id)
  | ["metrics"] => some .metrics
  | _ => none

def postRoute : List String → Option Route
  | ["api", "hunt"] => some (.view .hunt)
  | ["api", "hunt", "to-rule"] => some (.view .huntToRule)
  | ["api", "cases"] => some .createCase
  | ["api", "cases", id, "assign"] => some (.assignCase id)
  | ["api", "cases", id, "status"] => some (.caseStatus id)
  | ["api", "cases", id, "comments"] => some (.caseComment id)
  | ["api", "cases", id, "evidence"] => some (.caseEvidence id)
  | ["api", "soar", "enable"] => some .soarEnable
  | ["api", "playbooks"] => some .createPlaybook
  | ["api", "playbooks", id, "test"] => some (.testPlaybook id)
  | ["api", "agents", id, "commands"] => some (.enqueueCommand id)
  | ["api", "agents", id, "rotate-cert"] => some (.rotateCert id)
  | ["api", "rules", "reload"] => some .reloadRules
  | _ => none

/-- The handler of a request. A `GET` pattern takes `HEAD` requests too, and no pattern an empty
segment. -/
def route (method : String) (path : List String) : Option Route :=
  if "" ∈ path then none
  else if method = "GET" ∨ method = "HEAD" then (getRoute path).map .view
  else if method = "POST" then postRoute path
  else if method = "PUT" then
    match path with
    | ["api", "playbooks", id] => some (.updatePlaybook id)
    | _ => none
  else if method = "DELETE" then
    match path with
    | ["api", "playbooks", id] => some (.deletePlaybook id)
    | _ => none
  else none

/-! ## Handlers -/

/-- What an audited handler hands to the audit log. -/
structure AuditRecord where
  actor : String
  action : String
  target : String
  detail : Formatted
deriving Repr, DecidableEq

/-- The admin API's state. `issuer` says whether the server holds the CA key. -/
structure Api where
  platform : Platform
  authz : Authz
  issuer : Bool := false
  audit : List AuditRecord := []

structure CommandRequest where
  kind : String
  argument : String
deriving Repr, DecidableEq

/-- The decoders of request bodies; `none` is a decoding error. The body of a playbook test is
optional, so what it decodes to in any case is a text. -/
structure Json where
  command : Bytes → Option CommandRequest
  enabled : Bytes → Option Bool
  playbook : Bytes → Option Playbook
  createCase : Bytes → Option Cases.CreateInput
  assignee : Bytes → Option String
  status : Bytes → Option String
  comment : Bytes → Option (String × String)
  alertIDs : Bytes → Option (List String)
  alertID : Bytes → String

/-- What the outside answers during a request: what the engine's steps need, the outcome of a
ruleset reload, and of issuing a certificate. -/
structure Env extends Soar.Env where
  reload : Except Go.Error String := .error (.errorf "" [])
  issue : String → Except Go.Error String := fun _ => .error (.errorf "" [])

inductive Body where
  | error (message : Go.Error)
  | enabled (on : Bool)
  | playbook (p : Playbook)
  | deleted (id : String)
  | run (r : RunRecord)
  | case (c : Cases.Case)
  | queued (agentID kind : String)
  | rotated (agentID fingerprint : String)
  | reloaded (version : String)
deriving Repr, DecidableEq

/-- A response; that of a read-only handler is not spelled out. -/
inductive Response where
  | view (v : View)
  | answer (status : ℕ) (body : Body)
deriving Repr, DecidableEq

def fail (status : ℕ) (format : String) : Response := .answer status (.error (.errorf format []))

def invalidJSON : Response := fail 400 "invalid JSON body"

def Api.record (a : Api) (actor action target : String) (detail : Formatted) : Api :=
  { a with audit := a.audit ++ [{ actor, action, target, detail }] }

def presentedRole (authz : Authz) (r : Request) : Role :=
  match bearerToken r with
  | some presented => authz.role presented
  | none => .none

/-- `requireRole`: the role of the caller if it is at least `minRole`. -/
def requireRole (authz : Authz) (minRole : Role) (r : Request) : Except Response Role :=
  -- without tokens the guarded routes are closed to everyone
  if ¬authz.configured then
    .error (fail 503 "no admin tokens configured (set --admin-token or --rbac-file)")
  else if presentedRole authz r = .none then
    .error (fail 401 "missing or invalid bearer token")
  else if (presentedRole authz r).level < minRole.level then
    .error (fail 403 "token lacks the required role")
  else .ok (presentedRole authz r)

/-- The command kinds the endpoint takes: those of the protocol but the unspecified one. -/
def queueableKinds : List String :=
  ["UPDATE_RULES", "SET_RESPONSE_MODE", "KILL_PROCESS", "QUARANTINE"]

def handleEnqueueCommand (json : Json) (a : Api) (r : Request) (id : String) (role : Role) :
    Api × Response :=
  match json.command r.body with
  | none => (a, invalidJSON)
  | some req =>
    if req.kind ∉ queueableKinds then
      (a, fail 400 "unknown command kind (want UPDATE_RULES|SET_RESPONSE_MODE|KILL_PROCESS|QUARANTINE)")
    else
      match a.platform.store.enqueueCommand id { kind := req.kind, argument := req.argument } with
      | (_, false) => (a, fail 404 "unknown agent")
      | (store, true) =>
        (({ a with platform := { a.platform with store } }).record role.text "enqueue_command" id
          { format := "%s %s from %s", args := [req.kind, req.argument, r.remoteAddr] },
          .answer 202 (.queued id req.kind))

def handleRotateCert (a : Api) (r : Request) (env : Env) (id : String) (role : Role) :
    Api × Response :=
  if ¬a.issuer then
    (a, fail 501 "certificate rotation disabled: start the server with --ca-key (or --dev)")
  else
    match a.platform.store.get id with
    | none => (a, fail 404 "unknown agent")
    | some agent =>
      match env.issue (if agent.hostname = "" then id else agent.hostname) with
      | .error err => (a, .answer 500 (.error (.wrapf "issue certificate: %w" [] err)))
      | .ok fingerprint =>
        match a.platform.store.setPendingCert id fingerprint with
        | (_, false) => (a, fail 404 "unknown agent")
        | (store, true) =>
          (({ a with platform := { a.platform with store } }).record role.text "rotate_cert" id
            { format := "fingerprint %s from %s", args := [fingerprint, r.remoteAddr] },
            .answer 200 (.rotated id fingerprint))

/-- The effect of a reload on what is served is that of `Ruleset.advance`. -/
def handleReloadRules (a : Api) (r : Request) (env : Env) (role : Role) : Api × Response :=
  match env.reload with
  | .error err => (a, .answer 500 (.error (.wrapf "reload failed: %w" [] err)))
  | .ok version =>
    (a.record role.text "rules_reload" version { format := "%s", args := [r.remoteAddr] },
      .answer 200 (.reloaded version))

def handleSOAREnable (json : Json) (a : Api) (r : Request) : Api × Response :=
  match json.enabled r.body with
  | none => (a, invalidJSON)
  | some enabled =>
    (({ a with platform := { a.platform with enabled } }).record r.remoteAddr "soar_enable" "engine"
      { format := "enabled=%t", args := [Go.formatBool enabled] },
      .answer 200 (.enabled enabled))

/-- What an accepted change of a playbook does. -/
def savedPlaybook (a : Api) (r : Request) (action : String) (status : ℕ)
    (result : Except Go.Error (Soar.PlaybookStore × Playbook)) (id : Playbook → String) :
    Api × Response :=
  match result with
  | .error err => (a, .answer 400 (.error err))
  | .ok (playbooks, saved) =>
    (({ a with platform := { a.platform with playbooks } }).record r.remoteAddr action (id saved)
      { format := "%s mode=%s", args := [saved.name, saved.mode] },
      .answer status (.playbook saved))

def handleCreatePlaybook (json : Json) (a : Api) (r : Request) (env : Env) : Api × Response :=
  match json.playbook r.body with
  | none => (a, invalidJSON)
  | some playbook =>
    savedPlaybook a r "playbook_create" 201 (a.platform.playbooks.create env.now playbook)
      Playbook.id

def handleUpdatePlaybook (json : Json) (a : Api) (r : Request) (env : Env) (id : String) :
    Api × Response :=
  match json.playbook r.body with
  | none => (a, invalidJSON)
  | some playbook =>
    savedPlaybook a r "playbook_update" 200 (a.platform.playbooks.update env.now id playbook)
      fun _ => id

def handleDeletePlaybook (a : Api) (r : Request) (id : String) : Api × Response :=
  match a.platform.playbooks.delete id with
  | none => (a, fail 404 "unknown playbook")
  | some playbooks =>
    (({ a with platform := { a.platform with playbooks } }).record r.remoteAddr "playbook_delete" id
      { format := "" }, .answer 200 (.deleted id))

/-- The projection of a stored alert the engine reasons about. -/
def toSoarAlert (record : Store.AlertRecord) : Soar.AlertInfo where
  alertID := record.id
  agentID := record.agentID
  hostname := record.hostname
  ruleID := record.ruleID
  ruleName := record.ruleName
  severity := record.severity
  techniqueID := record.techniqueID
  pid := record.pid
  destinationIP := record.destinationIP
  riskScore := record.riskScore
  isIncident := record.isIncident

def resolveTestAlert (s : Store) (alertID : String) : Option Store.AlertRecord :=
  if alertID ≠ "" then s.alertByID alertID else (s.recentAlerts 1).head?

def handleTestPlaybook (u : Unicode) (deps : Soar.Deps) (json : Json) (a : Api) (r : Request)
    (env : Env) (id : String) : Api × Response :=
  match resolveTestAlert a.platform.store (json.alertID r.body) with
  | none => (a, fail 400 "no alert to test against (record an alert first or pass alert_id)")
  | some record =>
    match Soar.test u deps env.toEnv a.platform id (toSoarAlert record) with
    | .error err => (a, .answer 404 (.error err))
    | .ok (platform, run) => ({ a with platform }, .answer 200 (.run run))

def handleCreateCase (u : Unicode) (json : Json) (a : Api) (r : Request) (env : Env) :
    Api × Response :=
  match json.createCase r.body with
  | none => (a, invalidJSON)
  | some input =>
    match a.platform.cases.create u env.now input with
    | .error err => (a, .answer 400 (.error err))
    | .ok (cases, created) =>
      (({ a with platform := { a.platform with cases } }).record r.remoteAddr "case_create"
        created.id { format := "%s", args := [created.title] }, .answer 201 (.case created))

/-- A handler that changes a case: decodes its body, applies the change, and audits it. -/
def mutateCase {α : Type} (a : Api) (r : Request) (id action : String) (decoded : Option α)
    (detail : α → Formatted) (apply : α → Cases.Memory × Except Go.Error Cases.Case) :
    Api × Response :=
  match decoded with
  | none => (a, invalidJSON)
  | some req =>
    match apply req with
    | (cases, .error err) =>
      ({ a with platform := { a.platform with cases } },
        if err = Cases.errNotFound then fail 404 "unknown case" else .answer 400 (.error err))
    | (cases, .ok updated) =>
      (({ a with platform := { a.platform with cases } }).record r.remoteAddr action id
        (detail req), .answer 200 (.case updated))

def handleAssignCase (json : Json) (a : Api) (r : Request) (env : Env) (id : String) :
    Api × Response :=
  mutateCase a r id "case_assign" (json.assignee r.body)
    (fun assignee => { format := "%s", args := [assignee] })
    fun assignee => a.platform.cases.assign env.now id assignee

def handleCaseStatus (json : Json) (a : Api) (r : Request) (env : Env) (id : String) :
    Api × Response :=
  mutateCase a r id "case_status" (json.status r.body)
    (fun status => { format := "%s", args := [status] })
    fun status => a.platform.cases.setStatus env.now id status

def handleCaseComment (json : Json) (a : Api) (r : Request) (env : Env) (id : String) :
    Api × Response :=
  mutateCase a r id "case_comment" (json.comment r.body)
    (fun comment => { format := "%s", args := [comment.1] })
    fun comment =>
      a.platform.cases.addComment env.now id { author := comment.1, body := comment.2 }

def handleCaseEvidence (json : Json) (a : Api) (r : Request) (env : Env) (id : String) :
    Api × Response :=
  mutateCase a r id "case_evidence" (json.alertIDs r.body)
    (fun alertIDs => { format := "%d alert(s)", args := [toString alertIDs.length] })
    fun alertIDs => a.platform.cases.addEvidence env.now id alertIDs

def guarded (a : Api) (minRole : Role) (r : Request) (next : Role → Api × Response) :
    Api × Response :=
  match requireRole a.authz minRole r with
  | .error response => (a, response)
  | .ok role => next role

def dispatch (u : Unicode) (deps : Soar.Deps) (json : Json) (a : Api) (r : Request) (env : Env) :
    Route → Api × Response
  | .view v => (a, .view v)
  | .createCase => handleCreateCase u json a r env
  | .assignCase id => handleAssignCase json a r env id
  | .caseStatus id => handleCaseStatus json a r env id
  | .caseComment id => handleCaseComment json a r env id
  | .caseEvidence id => handleCaseEvidence json a r env id
  | .soarEnable => handleSOAREnable json a r
  | .createPlaybook => handleCreatePlaybook json a r env
  | .updatePlaybook id => handleUpdatePlaybook json a r env id
  | .deletePlaybook id => handleDeletePlaybook a r id
  | .testPlaybook id => handleTestPlaybook u deps json a r env id
  | .enqueueCommand id => guarded a .operator r (handleEnqueueCommand json a r id)
  | .rotateCert id => guarded a .admin r (handleRotateCert a r env id)
  | .reloadRules => guarded a .admin r (handleReloadRules a r env)

/-- What a request does and is answered; `none` if no pattern matches it. -/
def handle (u : Unicode) (deps : Soar.Deps) (json : Json) (a : Api) (r : Request) (env : Env) :
    Api × Option Response :=
  match route r.method r.path with
  | none => (a, none)
  | some handler =>
    let (a', response) := dispatch u deps json a r env handler
    (a', some response)

end ArgusEdr.Admin
