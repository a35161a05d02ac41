import ArgusEdr.Model.Event

/-!
# The responder (`internal/respond`)

The responder turns an alert, or a command of the control plane, into an action on the host, under a
posture that may change at run time but never past the ceiling fixed at start-up. What `signalGuarded`
and `NetworkBlocker.block` ask of the operating system is recorded as `Effect`s, and `Env` is what it
answers. `Responder.plan` and `Responder.finish` are `Handle`, cut where it has read the mode: another
goroutine can change the mode between the two.
-/

namespace ArgusEdr.Respond

open Model (Alert ResponseResult)

/-! ## Postures -/

/-- The global response posture; nothing is enforced below `enforce`. -/
inductive Mode where
  | off | dryRun | enforce
deriving Repr, DecidableEq

namespace Mode

def value : Mode → ℕ
  | off => 0
  | dryRun => 1
  | enforce => 2

theorem value_injective : Function.Injective value := by
  intro a b h
  cases a <;> cases b <;> first | rfl | cases h

instance : LinearOrder Mode := LinearOrder.lift' value value_injective

theorem le_iff {a b : Mode} : a ≤ b ↔ a.value ≤ b.value := Iff.rfl

theorem lt_iff {a b : Mode} : a < b ↔ a.value < b.value := Iff.rfl

theorem lt_enforce_iff {m : Mode} : m < enforce ↔ m = off ∨ m = dryRun := by
  cases m <;> simp [lt_iff, value]

def string : Mode → String
  | off => "off"
  | dryRun => "dry-run"
  | enforce => "enforce"

end Mode

/-- `ParseMode`: a text that is no posture reads as `off`. -/
def parseMode (mode : String) : Mode :=
  if mode = "dry-run" then .dryRun
  else if mode = "enforce" then .enforce
  else .off

theorem parseMode_string (m : Mode) : parseMode m.string = m := by cases m <;> decide

def clampMode (requested ceiling : Mode) : Mode :=
  if requested > ceiling then ceiling else requested

theorem clampMode_eq_min (requested ceiling : Mode) :
    clampMode requested ceiling = min requested ceiling := by
  unfold clampMode
  split
  · next h => exact (min_eq_right h.le).symm
  · next h => exact (min_eq_left (not_lt.mp h)).symm

theorem clampMode_le (requested ceiling : Mode) : clampMode requested ceiling ≤ ceiling := by
  rw [clampMode_eq_min]
  exact min_le_right _ _

theorem clampMode_of_le {requested ceiling : Mode} (h : requested ≤ ceiling) :
    clampMode requested ceiling = requested := by
  rw [clampMode_eq_min]
  exact min_eq_left h

/-! ## The ladder -/

/-- A response the agent can take. The source keeps it as a text, and a rule may request one
that is none of the five. -/
inductive Action where
  | alertOnly | throttle | networkBlock | quarantine | kill
  | other (text : String)
deriving Repr, DecidableEq

def Action.ofString (text : String) : Action :=
  if text = "alert_only" then .alertOnly
  else if text = "throttle" then .throttle
  else if text = "network_block" then .networkBlock
  else if text = "quarantine" then .quarantine
  else if text = "kill" then .kill
  else .other text

def Action.string : Action → String
  | .alertOnly => "alert_only"
  | .throttle => "throttle"
  | .networkBlock => "network_block"
  | .quarantine => "quarantine"
  | .kill => "kill"
  | .other text => text

/-- Each field is the lower bound of a rung on the 0–100 risk scale. -/
structure Policy where
  throttleScore : ℤ
  blockScore : ℤ
  killScore : ℤ
deriving Repr, DecidableEq

def defaultThrottleScore : ℤ := 50
def defaultBlockScore : ℤ := 75
def defaultKillScore : ℤ := 90

def defaultPolicy : Policy where
  throttleScore := defaultThrottleScore
  blockScore := defaultBlockScore
  killScore := defaultKillScore

/-- Severity on the scale of the risk scores. -/
def severityScore : Model.Severity → ℤ
  | .critical => defaultKillScore
  | .high => defaultBlockScore
  | .medium => defaultThrottleScore
  | .low => 0
  | .unset => 0

def effectiveScore (alert : Alert) : ℤ :=
  if alert.riskScore > 0 then alert.riskScore else severityScore alert.severity

def hasNetworkTarget (alert : Alert) : Bool := alert.event.network.dstIP ≠ ""

/-- `Policy.Action`: an explicit request wins; otherwise the score selects a rung. -/
def Policy.action (p : Policy) (alert : Alert) : Action :=
  if alert.requestedAction ≠ "" then .ofString alert.requestedAction
  else
    let score := effectiveScore alert
    if score ≥ p.killScore then .kill
    else if score ≥ p.blockScore then
      if hasNetworkTarget alert then .networkBlock else .throttle
    else if score ≥ p.throttleScore then .throttle
    else .alertOnly

/-! ## Acting on the host -/

inductive Signal where
  | sigkill | sigstop
deriving Repr, DecidableEq

/-- A request that reached the operating system, whatever it answered. -/
inductive Effect where
  | kill (pid : UInt32) (sig : Signal)
  | exec (name : String) (args : List String)
deriving Repr, DecidableEq

/-- The two families `net.ParseIP` distinguishes. -/
inductive IPFamily where
  | v4 | v6
deriving Repr, DecidableEq

/-- What the host answers during one call: `/proc/<pid>/comm`, `kill`, external commands,
and how `net.ParseIP` reads an address. -/
structure Env where
  readComm : UInt32 → Except Go.Error String
  kill : UInt32 → Signal → Except Go.Error Unit
  exec : String → List String → Except Go.Error Unit
  parseIP : String → Option IPFamily

def Env.obliging : Env where
  readComm := fun _ => .ok ""
  kill := fun _ _ => .ok ()
  exec := fun _ _ => .ok ()
  parseIP := fun _ => some .v4

/-- The blocker's own memory: whether its chain exists and what it has blocked. -/
structure NetworkBlocker where
  chainUp : Bool := false
  blocked : List String := []
deriving Repr, DecidableEq

/-- What an action reads and writes besides the host's answers. -/
structure Host where
  blocker : NetworkBlocker := {}
  effects : List Effect := []
deriving Repr, DecidableEq

/-- An action that may fail; what it did before failing stays done. -/
abbrev Act := ExceptT Go.Error (StateM Host)

def record (effect : Effect) : Act Unit :=
  modify fun h => { h with effects := h.effects ++ [effect] }

/-- Delivers `sig`, refusing if the process is no longer the one the alert observed. -/
def signalGuarded (env : Env) (pid : UInt32) (comm : String) (sig : Signal) : Act Unit := do
  -- without an observed name (a remote kill) there is nothing to compare with
  if comm ≠ "" then
    match env.readComm pid with
    | .error err => throw (.wrapf "process %d gone: %w" [toString pid] err)
    | .ok actual =>
      let current := Go.trimSpace actual
      if current ≠ comm then
        throw (.errorf "pid %d is now %q, not %q: refusing to signal" [toString pid, current, comm])
  record (.kill pid sig)
  ofExcept (env.kill pid sig)

def guardedKill (env : Env) (pid : UInt32) (comm : String) : Act Unit :=
  signalGuarded env pid comm .sigkill

def guardedFreeze (env : Env) (pid : UInt32) (comm : String) : Act Unit :=
  signalGuarded env pid comm .sigstop

def nftTable := "argus"
def nftChain := "argus_egress"

/-- Runs an external command, wrapping its error. -/
def runNft (env : Env) (args : List String) (format : String) (names : List String) :
    Act Unit := do
  record (.exec "nft" args)
  match env.exec "nft" args with
  | .error err => throw (.wrapf format names err)
  | .ok () => pure ()

def ensureChain (env : Env) : Act Unit := do
  if (← get).blocker.chainUp then return
  -- adding what exists is no error to `nft`, so a failure half-way is retried from the start
  runNft env ["add", "table", "inet", nftTable] "nft create table: %w" []
  runNft env ["add", "chain", "inet", nftTable, nftChain,
    "\x7b type filter hook output priority 0 ; policy accept ; \x7d"] "nft create chain: %w" []
  modify fun h => { h with blocker := { h.blocker with chainUp := true } }

/-- Drops egress to `ip`; a second call for a blocked address does nothing. -/
def block (env : Env) (ip : String) : Act Unit := do
  match env.parseIP ip with
  | none => throw (.errorf "invalid ip %q" [ip])
  | some parsed =>
    if ip ∈ (← get).blocker.blocked then return
    ensureChain env
    let family := if parsed = .v4 then "ip" else "ip6"
    runNft env ["add", "rule", "inet", nftTable, nftChain, family, "daddr", ip, "drop"]
      "nft drop %s: %w" [ip]
    modify fun h => { h with blocker := { h.blocker with blocked := ip :: h.blocker.blocked } }

/-! ## The responder -/

/-- The responder. `maxMode`, `policy` and `allowlist` are fixed by `New`. -/
structure Responder where
  mode : Mode
  maxMode : Mode
  policy : Policy
  allowlist : List String
deriving Repr, DecidableEq

namespace Responder

def new (mode maxMode : Mode) (allowlistPaths : List String) : Responder where
  mode := clampMode mode maxMode
  maxMode := maxMode
  policy := defaultPolicy
  allowlist := allowlistPaths

def setMode (r : Responder) (requested : Mode) : Responder :=
  { r with mode := clampMode requested r.maxMode }

def allowlisted (r : Responder) (event : Model.Event) : Bool :=
  event.process.executable ∈ r.allowlist

/-- What `Handle` has decided once it has read the mode. -/
inductive Plan where
  | nothing
  | suppressed
  | withhold (action : Action)
  | carryOut (action : Action)
deriving Repr, DecidableEq

/-- The first half of `Handle`: reads the mode, picks the action, and decides. -/
def plan (r : Responder) (alert : Alert) : Plan :=
  let action := r.policy.action alert
  if action = .alertOnly ∨ r.mode = .off then .nothing
  else if r.allowlisted alert.event then .suppressed
  else if r.mode = .dryRun then .withhold action
  else .carryOut action

/-- Runs an action whose success reads `done`, as the result text of a response. -/
def report (act : Act Unit) (done : String) : StateM Host ResponseResult := do
  match ← act.run with
  | .error err => return .failed err
  | .ok () => return .text done

def execute (env : Env) (action : Action) (alert : Alert) :
    StateM Host ResponseResult :=
  let process := alert.event.process
  let ip := alert.event.network.dstIP
  match action with
  -- the process must still be the one the alert observed
  | .kill => report (guardedKill env process.pid process.name) "success"
  | .throttle => report (guardedFreeze env process.pid process.name) "suspended"
  | .networkBlock | .quarantine =>
    if ip = "" then pure (.text "no destination to block")
    else report (block env ip) ("blocked " ++ ip)
  | .alertOnly | .other _ => pure (.text "noop")

/-- The second half of `Handle`: carries the decision out and annotates the alert. -/
def finish (env : Env) (alert : Alert) : Plan → StateM Host Alert
  | .nothing | .suppressed => pure alert
  | .withhold action =>
    pure { alert with response := some { action := action.string, result := .text "dry-run" } }
  | .carryOut action => do
    let result ← execute env action alert
    return { alert with response := some { action := action.string, result } }

/-- `RequestKill` and `RequestNetworkBlock` share this switch on the posture. -/
def requested (r : Responder) (act : Act Unit) (done : String) :
    StateM Host ResponseResult :=
  match r.mode with
  | .off => pure (.text "suppressed: response off")
  | .dryRun => pure (.text "dry-run")
  | .enforce => report act done

def requestKill (r : Responder) (env : Env) (pid : UInt32) (comm : String) :
    StateM Host ResponseResult :=
  r.requested (guardedKill env pid comm) "success"

def requestNetworkBlock (r : Responder) (env : Env) (ip : String) :
    StateM Host ResponseResult :=
  r.requested (block env ip) ("blocked " ++ ip)

/-! ## The posture gates every action -/

theorem new_mode_le (mode maxMode : Mode) (paths : List String) :
    (new mode maxMode paths).mode ≤ maxMode :=
  clampMode_le mode maxMode

variable {r : Responder} {alert : Alert}

theorem mode_of_plan_carryOut {action : Action} (h : r.plan alert = .carryOut action) :
    r.mode = .enforce := by
  simp only [plan] at h
  split_ifs at h with h1 h2 h3
  cases hm : r.mode with
  | off => exact absurd (Or.inr hm) h1
  | dryRun => exact absurd hm h3
  | enforce => rfl

theorem executable_notMem_of_plan_carryOut {action : Action} (h : r.plan alert = .carryOut action) :
    alert.event.process.executable ∉ r.allowlist := by
  simp only [plan] at h
  split_ifs at h with h1 h2 h3
  simpa [allowlisted] using h2

theorem finish_host_of_not_carryOut {env : Env} {p : Plan} (h : Host)
    (hp : ∀ action, p ≠ .carryOut action) : (finish env alert p h).2 = h := by
  cases p with
  | nothing | suppressed | withhold => rfl
  | carryOut action => exact absurd rfl (hp action)

theorem requested_host_of_lt (hr : r.mode < .enforce) (act : Act Unit) (done : String) (h : Host) :
    (r.requested act done h).2 = h := by
  rcases Mode.lt_enforce_iff.mp hr with hm | hm <;> simp only [requested, hm] <;> rfl

end Responder
end ArgusEdr.Respond
