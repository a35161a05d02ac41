import ArgusEdr.Agent.PostureTheorems
import ArgusEdr.Go.Strconv
import ArgusEdr.Lib.Fallible

/-!
# Which processes an agent signals (`internal/respond`, `cmd/argus`)

A process is signalled on two routes: the response to an alert, which compares the name of the process
first, and the command `KILL_PROCESS`, which has nothing to compare with. `signals` are the calls of
`kill(2)` a host has seen, and `signals_step` says what one event of an agent adds to them.
-/

namespace ArgusEdr.Posture

open Respond Runs Fallible List

variable {decode : Go.Bytes → Except Go.Error Policy.Document}

/-! ## What an action adds -/

def Effect.signal : Effect → Option (UInt32 × Signal)
  | .kill pid sig => some (pid, sig)
  | .exec .. => none

def signals (h : Host) : List (UInt32 × Signal) := h.effects.filterMap Effect.signal

/-- `signalGuarded` goes on to the signal: the process still has the name, if there is one. -/
def recognised (env : Env) (pid : UInt32) (comm : String) : Bool :=
  if comm = "" then true
  else
    match env.readComm pid with
    | .error _ => false
    | .ok actual => Go.trimSpace actual = comm

theorem signals_signalGuarded (env : Env) (pid : UInt32) (comm : String) (sig : Signal) (h : Host) :
    signals ((signalGuarded env pid comm sig).run.run h).2 =
      signals h ++ if recognised env pid comm then [(pid, sig)] else [] := by
  have hsend : signals ((record (.kill pid sig) >>= fun _ => ofExcept (env.kill pid sig)).run.run h).2
      = signals h ++ [(pid, sig)] := by
    have happend : signals { h with effects := h.effects ++ [.kill pid sig] } =
        signals h ++ [(pid, sig)] := by
      simp [signals, Effect.signal]
    cases env.kill pid sig <;> exact happend
  unfold signalGuarded recognised
  by_cases hcomm : comm = ""
  · simpa [hcomm] using hsend
  · cases hread : env.readComm pid with
    | error => simp [hcomm]; rfl
    | ok actual =>
      by_cases hname : Go.trimSpace actual = comm
      · simpa [hcomm, hname] using hsend
      · simp [hcomm, hname]; rfl

theorem keeps_signals_runNft (env : Env) (args : List String) (format : String)
    (names : List String) : Keeps signals (runNft env args format names) := by
  refine Keeps.bind (Keeps.modify fun h => ?_) fun _ => ?_
  · simp [signals, Effect.signal]
  · cases env.exec "nft" args with
    | error => exact Keeps.throw _
    | ok _ => exact Keeps.pure _

theorem keeps_signals_ensureChain (env : Env) : Keeps signals (ensureChain env) := by
  refine Keeps.bind Keeps.get fun h => ?_
  split
  · exact Keeps.pure _
  · refine Keeps.bind (keeps_signals_runNft _ _ _ _) fun _ => ?_
    refine Keeps.bind (keeps_signals_runNft _ _ _ _) fun _ => ?_
    exact Keeps.modify fun _ => rfl

theorem keeps_signals_block (env : Env) (ip : String) : Keeps signals (block env ip) := by
  unfold block
  split
  · exact Keeps.throw _
  · refine Keeps.bind Keeps.get fun h => ?_
    split
    · exact Keeps.pure _
    · refine Keeps.bind (keeps_signals_ensureChain env) fun _ => ?_
      refine Keeps.bind (keeps_signals_runNft _ _ _ _) fun _ => ?_
      exact Keeps.modify fun _ => rfl

theorem report_snd (act : Act Unit) (done : String) (h : Host) :
    (Responder.report act done h).2 = (act.run.run h).2 := by
  change ((Responder.report act done).run h).2 = _
  unfold Responder.report
  rw [StateT.run_bind]
  generalize act.run.run h = result
  obtain ⟨res, h'⟩ := result
  cases res <;> rfl

theorem signals_guarded (env : Env) (pid : UInt32) (comm done : String) (sig : Signal) (h : Host) :
    signals (Responder.report (signalGuarded env pid comm sig) done h).2 =
      signals h ++ if recognised env pid comm then [(pid, sig)] else [] := by
  rw [report_snd, signals_signalGuarded]

theorem signals_blocked (env : Env) (ip done : String) (h : Host) :
    signals (Responder.report (block env ip) done h).2 = signals h := by
  rw [report_snd]
  exact keeps_signals_block env ip h

/-! ## What an event adds -/

def Action.signal : Action → Option Signal
  | .kill => some .sigkill
  | .throttle => some .sigstop
  | .networkBlock | .quarantine | .alertOnly | .other _ => none

def remoteTarget (r : Responder) (cmd : Command) : Option UInt32 :=
  if r.mode = .enforce ∧ cmd.kind = "KILL_PROCESS" then
    match Go.parseUint (Go.trimSpace cmd.argument) 32 with
    | .error _ => none
    | .ok pid => some (UInt32.ofNat pid)
  else none

/-- The signal that carries out what was decided about an alert. -/
def responseTarget (env : Env) : Option (Model.Alert × Responder.Plan) → Option (UInt32 × Signal)
  | some (alert, .carryOut action) =>
    let process := alert.event.process
    if recognised env process.pid process.name then
      (Action.signal action).map fun sig => (process.pid, sig)
    else none
  | some (_, .nothing) | some (_, .suppressed) | some (_, .withhold _) | none => none

def target (a : Agent) : Event → Option (UInt32 × Signal)
  | .command cmd _ => (remoteTarget a.responder cmd).map fun pid => (pid, .sigkill)
  | .handleEnd env => responseTarget env a.handling
  | .handleBegin _ | .pushed _ => none

theorem signals_execute (env : Env) (action : Action) (alert : Model.Alert) (h : Host) :
    signals (Responder.execute env action alert h).2 =
      signals h ++ (responseTarget env (some (alert, .carryOut action))).toList := by
  cases action with
  | kill | throttle =>
    refine (signals_guarded ..).trans ?_
    simp only [responseTarget, Action.signal]
    split <;> rfl
  | networkBlock | quarantine =>
    simp only [Responder.execute, responseTarget, Action.signal, Option.map_none, ite_self,
      Option.toList_none, append_nil]
    split
    · rfl
    · exact signals_blocked ..
  | alertOnly | other _ =>
    simp only [responseTarget, Action.signal, Option.map_none, ite_self, Option.toList_none,
      append_nil]
    rfl

theorem signals_finish (env : Env) (alert : Model.Alert) (plan : Responder.Plan) (h : Host) :
    signals (Responder.finish env alert plan h).2 =
      signals h ++ (responseTarget env (some (alert, plan))).toList := by
  cases plan with
  | nothing | suppressed | withhold action => exact (append_nil _).symm
  | carryOut action => exact signals_execute env action alert h

theorem signals_requested (r : Responder) (act : Act Unit) (done : String) (h : Host) :
    signals (r.requested act done h).2 =
      if r.mode = .enforce then signals (Responder.report act done h).2 else signals h := by
  cases hr : r.mode <;> simp only [Responder.requested, hr] <;> rfl

theorem signals_requestNetworkBlock (r : Responder) (env : Env) (ip : String) (h : Host) :
    signals (r.requestNetworkBlock env ip h).2 = signals h := by
  rw [Responder.requestNetworkBlock, signals_requested, signals_blocked, ite_self]

theorem signals_remoteKill (a : Agent) (env : Env) {cmd : Command} (hkind : cmd.kind = "KILL_PROCESS") :
    signals (remoteKill a env cmd.argument).host =
      signals a.host ++ ((remoteTarget a.responder cmd).map fun pid => (pid, .sigkill)).toList := by
  unfold remoteKill remoteTarget
  cases Go.parseUint (Go.trimSpace cmd.argument) 32 with
  | error => simp
  | ok pid =>
    -- a remote kill has no name to compare with
    have hname : ∀ pid, recognised env pid "" = true := fun _ => rfl
    simp only [onHost, Responder.requestKill, guardedKill, signals_requested, signals_guarded,
      hname, if_true, hkind, and_true]
    split <;> simp

theorem signals_command (a : Agent) (cmd : Command) (env : Env) :
    signals (applyCommand a cmd env).host =
      signals a.host ++ ((remoteTarget a.responder cmd).map fun pid => (pid, .sigkill)).toList := by
  by_cases hkill : cmd.kind = "KILL_PROCESS"
  · rw [← signals_remoteKill a env hkill]
    simp [applyCommand, hkill]
  · have hnone : remoteTarget a.responder cmd = none := if_neg fun h => hkill h.2
    rw [hnone, Option.map_none, Option.toList_none, append_nil]
    unfold applyCommand
    split_ifs
    · rfl
    · rfl
    · exact signals_requestNetworkBlock ..
    · rfl

theorem signals_step (a : Agent) (e : Event) :
    signals (step decode a e).host = signals a.host ++ (target a e).toList := by
  cases e with
  | handleBegin =>
    simp only [step, target, Option.toList_none, append_nil]
    split <;> rfl
  | handleEnd env =>
    simp only [step, handleEnd, target]
    cases a.handling with
    | none => exact (append_nil _).symm
    | some handling => exact signals_finish env handling.1 handling.2 a.host
  | command cmd env => exact signals_command a cmd env
  | pushed => exact (append_nil _).symm

theorem forall_signals_run (P : UInt32 × Signal → Prop) (a : Agent) (es : List Event) :
    (∀ t ∈ signals (run (step decode) a es).host, P t) ↔
      (∀ t ∈ signals a.host, P t) ∧
        AllSteps (step decode) (fun a e => ∀ t ∈ target a e, P t) a es := by
  induction es generalizing a with
  | nil => simp
  | cons e es ih =>
    rw [run_cons, ih, signals_step, AllSteps.cons_iff, ← and_assoc]
    simp only [mem_append, Option.mem_toList, or_imp, forall_and, Option.mem_def]

/-! ## Process groups -/

/-- The pid of `syscall.Kill(int(pid), sig)` as the kernel reads it. Zero is the process group of
the caller, -1 every process, and any other negative number a process group. -/
def kernelPid (pid : UInt32) : ℤ := pid.toBitVec.toInt

theorem kernelPid_pos_iff (pid : UInt32) :
    0 < kernelPid pid ↔ 0 < pid.toNat ∧ pid.toNat < 2 ^ 31 := by
  have hlt : pid.toNat < 2 ^ 32 := pid.toNat_lt
  unfold kernelPid
  rw [BitVec.toInt_eq_toNat_cond, UInt32.toNat_toBitVec]
  split <;> omega

/-- The numbers an event makes the agent signal are in the range of the kernel's pids. -/
def InRange (a : Agent) : Event → Prop
  | .command cmd _ =>
    a.responder.mode = .enforce → cmd.kind = "KILL_PROCESS" →
      ∀ n, Go.parseUint (Go.trimSpace cmd.argument) 32 = .ok n → 0 < n ∧ n < 2 ^ 31
  | .handleEnd env =>
    ∀ alert action, a.handling = some (alert, .carryOut action) →
      action = .kill ∨ action = .throttle →
      recognised env alert.event.process.pid alert.event.process.name = true →
      0 < alert.event.process.pid.toNat ∧ alert.event.process.pid.toNat < 2 ^ 31
  | .handleBegin _ | .pushed _ => True

theorem mem_remoteTarget_iff (r : Responder) (cmd : Command) (pid : UInt32) :
    pid ∈ remoteTarget r cmd ↔
      r.mode = .enforce ∧ cmd.kind = "KILL_PROCESS" ∧
        ∃ n, Go.parseUint (Go.trimSpace cmd.argument) 32 = .ok n ∧ UInt32.ofNat n = pid := by
  unfold remoteTarget
  cases Go.parseUint (Go.trimSpace cmd.argument) 32 with
  | error => simp
  | ok => split <;> simp_all

theorem mem_responseTarget_iff (env : Env) (handling : Option (Model.Alert × Responder.Plan))
    (t : UInt32 × Signal) :
    t ∈ responseTarget env handling ↔
      ∃ alert action, handling = some (alert, .carryOut action) ∧
        recognised env alert.event.process.pid alert.event.process.name = true ∧
        t.1 = alert.event.process.pid ∧ Action.signal action = some t.2 := by
  obtain ⟨pid, sig⟩ := t
  constructor
  · intro h
    unfold responseTarget at h
    split at h
    · next alert action =>
      dsimp only at h
      split at h
      · next hrec =>
        obtain ⟨sig', hsig, heq⟩ := Option.map_eq_some_iff.mp h
        cases heq
        exact ⟨alert, action, rfl, hrec, rfl, hsig⟩
      · cases h
    all_goals cases h
  · rintro ⟨alert, action, rfl, hrec, rfl, hsig⟩
    simp [responseTarget, hrec, hsig]

theorem signal_isSome_iff (action : Action) :
    (∃ sig, Action.signal action = some sig) ↔ action = .kill ∨ action = .throttle := by
  cases action <;> simp [Action.signal]

theorem inRange_iff (a : Agent) (e : Event) :
    (∀ t ∈ target a e, 0 < kernelPid t.1) ↔ InRange a e := by
  cases e with
  | handleBegin | pushed => simp [target, InRange]
  | command =>
    constructor
    · intro h hmode hkind n hn
      have hpid := h (UInt32.ofNat n, .sigkill)
        (Option.mem_map.mpr ⟨_, (mem_remoteTarget_iff ..).mpr ⟨hmode, hkind, n, hn, rfl⟩, rfl⟩)
      rwa [kernelPid_pos_iff, UInt32.toNat_ofNat_of_lt' (Go.parseUint_lt hn)] at hpid
    · intro h t ht
      obtain ⟨pid, hpid, rfl⟩ := Option.mem_map.mp ht
      obtain ⟨hmode, hkind, n, hn, rfl⟩ := (mem_remoteTarget_iff ..).mp hpid
      rw [kernelPid_pos_iff, UInt32.toNat_ofNat_of_lt' (Go.parseUint_lt hn)]
      exact h hmode hkind n hn
  | handleEnd =>
    constructor
    · intro h alert action hh haction hrec
      obtain ⟨sig, hsig⟩ := (signal_isSome_iff action).mpr haction
      rw [← kernelPid_pos_iff]
      exact h (_, sig) ((mem_responseTarget_iff ..).mpr ⟨alert, action, hh, hrec, rfl, hsig⟩)
    · intro h t ht
      obtain ⟨alert, action, hh, hrec, hpid, hsig⟩ := (mem_responseTarget_iff ..).mp ht
      rw [hpid, kernelPid_pos_iff]
      exact h alert action hh ((signal_isSome_iff action).mp ⟨_, hsig⟩) hrec

/-- Over every run of an agent, each signal addresses one process exactly when every number that a
command or an alert makes the agent signal is positive and below 2³¹. -/
theorem signals_positive_iff (cfg : Config) (env : Lsm.LoadEnv) (es : List Event) :
    (∀ t ∈ signals (run (step decode) (start cfg env) es).host, 0 < kernelPid t.1) ↔
      AllSteps (step decode) InRange (start cfg env) es := by
  rw [forall_signals_run fun t => 0 < kernelPid t.1]
  have hstart : ∀ t ∈ signals (start cfg env).host, 0 < kernelPid t.1 := by simp [signals, start]
  rw [and_iff_right hstart]
  simp only [inRange_iff]

/-- The commands `KILL_PROCESS 0` and `KILL_PROCESS 4294967295` signal the agent's own process
group and every process of the host. -/
theorem remote_kill_of_groups :
    (signals (run (step fun _ => .ok {}) (start (configWith "enforce" "enforce") (.obliging 700))
      [.command { kind := "KILL_PROCESS", argument := "0" } .obliging,
        .command { kind := "KILL_PROCESS", argument := "4294967295" } .obliging]).host).map
      (fun t => (kernelPid t.1, t.2)) = [(0, .sigkill), (-1, .sigkill)] := by
  decide +kernel

/-! ## The allowlist -/

/-- An agent with what its pipeline has seen: the event it is processing, and for every pid the
executable of the last exec event. -/
structure Watch where
  agent : Agent
  current : Option Model.Event := none
  executables : UInt32 → Option String := fun _ => none

inductive Occurrence where
  /-- the pipeline takes the next event -/
  | observed (event : Model.Event)
  | agent (e : Event)

/-- The alerts the pipeline handles are those of the event it is processing. -/
def Event.OfCurrent (current : Option Model.Event) : Event → Prop
  | .handleBegin alert => current = some alert.event
  | .handleEnd _ | .command .. | .pushed _ => True

instance (current : Option Model.Event) : (e : Event) → Decidable (e.OfCurrent current)
  | .handleBegin alert => inferInstanceAs (Decidable (current = some alert.event))
  | .handleEnd _ | .command .. | .pushed _ => .isTrue trivial

namespace Watch

def observe (w : Watch) (event : Model.Event) : Watch :=
  { w with
    current := some event
    executables :=
      if event.action = "exec" then
        Function.update w.executables event.process.pid (some event.process.executable)
      else w.executables }

def step (decode : Go.Bytes → Except Go.Error Policy.Document) (w : Watch) : Occurrence → Watch
  -- the pipeline is done with an event when its alerts are handled
  | .observed event => if w.agent.handling = none then w.observe event else w
  | .agent e =>
    if e.OfCurrent w.current then { w with agent := Posture.step decode w.agent e } else w

def start (cfg : Config) (env : Lsm.LoadEnv) : Watch where
  agent := Posture.start cfg env

def sent (decode : Go.Bytes → Except Go.Error Policy.Document) (w : Watch) (o : Occurrence) :
    List (UInt32 × Signal) :=
  (signals (w.step decode o).agent.host).drop (signals w.agent.host).length

/-- Nothing is sent to a process that runs an executable of the list. -/
def Spares (decode : Go.Bytes → Except Go.Error Policy.Document) (allowlist : List String)
    (w : Watch) (o : Occurrence) : Prop :=
  ∀ t ∈ w.sent decode o, ∀ exe ∈ w.executables t.1, exe ∉ allowlist

/-- What the two routes have to respect for that: no command kills a process that runs an
executable of the list, and no alert on an event other than an exec leads to a signal for one. -/
def Careful (allowlist : List String) (w : Watch) : Occurrence → Prop
  | .agent (.command cmd _) =>
    w.agent.responder.mode = .enforce → cmd.kind = "KILL_PROCESS" →
      ∀ n, Go.parseUint (Go.trimSpace cmd.argument) 32 = .ok n →
        ∀ exe ∈ w.executables (UInt32.ofNat n), exe ∉ allowlist
  | .agent (.handleEnd env) =>
    ∀ alert action, w.agent.handling = some (alert, .carryOut action) →
      action = .kill ∨ action = .throttle →
      recognised env alert.event.process.pid alert.event.process.name = true →
      alert.event.action ≠ "exec" →
        ∀ exe ∈ w.executables alert.event.process.pid, exe ∉ allowlist
  | .agent (.handleBegin _) | .agent (.pushed _) | .observed _ => True

/-- The allowlist is the configured one, what the pipeline handles is about the event it is
processing, and a decision to act is about an event whose executable is not on the list. -/
structure Following (allowlist : List String) (w : Watch) : Prop where
  allowlist_eq : w.agent.responder.allowlist = allowlist
  handling_current : ∀ alert plan, w.agent.handling = some (alert, plan) →
    w.current = some alert.event
  exec_current : ∀ event, w.current = some event → event.action = "exec" →
    w.executables event.process.pid = some event.process.executable
  carryOut_notMem : ∀ alert action, w.agent.handling = some (alert, .carryOut action) →
    alert.event.process.executable ∉ allowlist

theorem start_following (cfg : Config) (env : Lsm.LoadEnv) :
    Following cfg.response.allowlistPaths (start cfg env) where
  allowlist_eq := rfl
  handling_current := fun _ _ h => by cases h
  exec_current := fun _ h => by cases h
  carryOut_notMem := fun _ _ h => by cases h

variable {allowlist : List String} {w : Watch}

theorem following_observe (hw : Following allowlist w) (hnone : w.agent.handling = none)
    (event : Model.Event) :
    Following allowlist (w.observe event) where
  allowlist_eq := hw.allowlist_eq
  handling_current := by
    intro alert plan h
    exact absurd (hnone.symm.trans h) (by simp)
  exec_current := by
    intro event' h hexec
    cases h
    simp [observe, hexec]
  carryOut_notMem := hw.carryOut_notMem

theorem following_agent (hw : Following allowlist w) {e : Event} (he : e.OfCurrent w.current) :
    Following allowlist { w with agent := Posture.step decode w.agent e } where
  allowlist_eq := by
    rw [← hw.allowlist_eq, step_responder]
    split <;> rfl
  handling_current := by
    intro alert plan h
    rcases handling_of_step h with h | ⟨rfl, -⟩
    · exact hw.handling_current alert plan h
    · exact he
  exec_current := hw.exec_current
  carryOut_notMem := by
    intro alert action h
    rcases handling_of_step h with h | ⟨-, h⟩
    · exact hw.carryOut_notMem alert action h
    · rw [← hw.allowlist_eq]
      exact Responder.executable_notMem_of_plan_carryOut h.symm

theorem step_following (w : Watch) (o : Occurrence) (hw : Following allowlist w) :
    Following allowlist (w.step decode o) := by
  cases o with
  | observed event =>
    simp only [step]
    split
    · next hnone => exact following_observe hw hnone event
    · exact hw
  | agent =>
    simp only [step]
    split
    · next he => exact following_agent hw he
    · exact hw

theorem sent_observed (w : Watch) (event : Model.Event) : w.sent decode (.observed event) = [] := by
  simp only [sent, step]
  split <;> exact drop_length

theorem mem_sent_agent (w : Watch) (e : Event) (t : UInt32 × Signal) :
    t ∈ w.sent decode (.agent e) ↔ e.OfCurrent w.current ∧ t ∈ target w.agent e := by
  simp only [sent, step]
  split
  · next he => simp [signals_step, he]
  · next he => simp [he]

theorem spares_command (allowlist : List String) (w : Watch) (cmd : Command) (env : Env) :
    w.Spares decode allowlist (.agent (.command cmd env)) ↔
      w.Careful allowlist (.agent (.command cmd env)) := by
  unfold Spares
  simp only [mem_sent_agent, target, Option.mem_map, mem_remoteTarget_iff]
  constructor
  · intro h hmode hkind n hn
    exact h (UInt32.ofNat n, .sigkill) ⟨trivial, _, ⟨hmode, hkind, n, hn, rfl⟩, rfl⟩
  · rintro h t ⟨-, pid, ⟨hmode, hkind, n, hn, rfl⟩, rfl⟩
    exact h hmode hkind n hn

theorem spares_handleEnd (hw : Following allowlist w) (env : Env) :
    w.Spares decode allowlist (.agent (.handleEnd env)) ↔
      w.Careful allowlist (.agent (.handleEnd env)) := by
  unfold Spares
  simp only [mem_sent_agent, target, mem_responseTarget_iff]
  constructor
  · intro h alert action hh haction hrec _
    obtain ⟨sig, hsig⟩ := (signal_isSome_iff action).mpr haction
    exact h (alert.event.process.pid, sig) ⟨trivial, alert, action, hh, hrec, rfl, hsig⟩
  · rintro h t ⟨-, alert, action, hh, hrec, hpid, hsig⟩ exe hexe
    rw [hpid] at hexe
    by_cases hexec : alert.event.action = "exec"
    · -- the event itself is the last exec, and its executable was looked up in the list
      rw [hw.exec_current _ (hw.handling_current _ _ hh) hexec] at hexe
      cases hexe
      exact hw.carryOut_notMem alert action hh
    · exact h alert action hh ((signal_isSome_iff action).mp ⟨_, hsig⟩) hrec hexec exe hexe

theorem spares_iff (w : Watch) (o : Occurrence) (hw : Following allowlist w) :
    w.Spares decode allowlist o ↔ w.Careful allowlist o := by
  match o with
  | .observed event => simp [Spares, sent_observed, Careful]
  | .agent (.handleBegin alert) => simp [Spares, mem_sent_agent, target, Careful]
  | .agent (.pushed files) => simp [Spares, mem_sent_agent, target, Careful]
  | .agent (.command cmd env) => exact spares_command allowlist w cmd env
  | .agent (.handleEnd env) => exact spares_handleEnd hw env

end Watch

/-- Over every run, no signal is sent to a process that runs an executable of
`response.allowlist_paths` exactly when no applied command kills such a process and no response to
an event other than an exec signals one. -/
theorem allowlist_spared_iff (cfg : Config) (env : Lsm.LoadEnv) (os : List Occurrence) :
    AllSteps (Watch.step decode) (Watch.Spares decode cfg.response.allowlistPaths)
        (Watch.start cfg env) os ↔
      AllSteps (Watch.step decode) (Watch.Careful cfg.response.allowlistPaths)
        (Watch.start cfg env) os := by
  exact AllSteps.congr AllSteps.always (Watch.start_following cfg env)
    (fun w o hw _ => Watch.step_following w o hw) Watch.spares_iff

/-- What a server of the default configuration runs, and what it does next: it connects. -/
def sshd (action : String) : Model.Event :=
  { action
    process :=
      { pid := 811, name := "sshd"
        executable := if action = "exec" then "/usr/sbin/sshd" else "" } }

def watchingSshd : Watch :=
  (Watch.start (configWith "enforce" "enforce") (.obliging 700)).step (fun _ => .ok {})
    (.observed (sshd "exec"))

/-- A critical alert on a connection of `sshd`, whose event does not name the executable, and a
command of the control plane: both kill it. -/
theorem allowlisted_sshd_killed :
    "/usr/sbin/sshd" ∈ (configWith "enforce" "enforce").response.allowlistPaths ∧
      watchingSshd.executables 811 = some "/usr/sbin/sshd" ∧
      watchingSshd.sent (fun _ => .ok {})
        (.agent (.command { kind := "KILL_PROCESS", argument := "811" } .obliging)) =
          [(811, .sigkill)] ∧
      (run (Watch.step fun _ => .ok {}) watchingSshd
        [.observed (sshd "connect"),
          .agent (.handleBegin { severity := .critical, event := sshd "connect" })]).sent
        (fun _ => .ok {})
        (.agent (.handleEnd { Env.obliging with readComm := fun _ => .ok "sshd\n" })) =
          [(811, .sigkill)] := by
  decide +kernel

end ArgusEdr.Posture
