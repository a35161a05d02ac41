import ArgusEdr.Agent.Posture

/-!
# The ceiling, and the two copies of the posture

What one event can do to the posture is said once: `step_mode` (the responder's mode becomes
the mode asked for, clamped, or stays), `step_maxMode` and `step_enforcement` (the ceiling
and the kernel's copy never change), `step_host` (an event acts on the host only in the mode
`enforce`, or to carry out what was decided in it).
-/

namespace ArgusEdr.Posture

open Respond Runs List

variable {decode : Go.Bytes → Except Go.Error Policy.Document}

/-! ## What an event can do -/

/-- The posture a pushed bundle asks for. -/
def policyRequest (decode : Go.Bytes → Except Go.Error Policy.Document)
    (files : List RuleFile) : Option Mode :=
  match files.find? fun file => Go.base file.name = Policy.fileName with
  | none => none
  | some file =>
    match Policy.parse decode file.content with
    | .error _ => none
    | .ok parsed =>
      if parsed.responseMode ≠ "" then some (parseMode parsed.responseMode) else none

/-- The posture an event asks for, if it is a request to change it. -/
def Event.request (decode : Go.Bytes → Except Go.Error Policy.Document) : Event → Option Mode
  | .command cmd _ =>
    if cmd.kind = "SET_RESPONSE_MODE" then some (parseMode cmd.argument) else none
  | .pushed files => policyRequest decode files
  | .handleBegin _ | .handleEnd _ => none

theorem applyPolicy_eq (files : List RuleFile) (r : Responder) :
    applyPolicy decode files r =
      match policyRequest decode files with
      | some m => r.setMode m
      | none => r := by
  unfold applyPolicy policyRequest
  cases files.find? fun file => Go.base file.name = Policy.fileName with
  | none => rfl
  | some file =>
    dsimp only
    cases Policy.parse decode file.content with
    | error => rfl
    | ok => dsimp only; split_ifs <;> rfl

@[simp] theorem onHost_responder (a : Agent) (act : StateM Host Model.ResponseResult) :
    (onHost a act).responder = a.responder := rfl

@[simp] theorem onHost_enforcement (a : Agent) (act : StateM Host Model.ResponseResult) :
    (onHost a act).enforcement = a.enforcement := rfl

theorem remoteKill_eq (a : Agent) (env : Env) (argument : String) :
    remoteKill a env argument = a ∨
      ∃ pid, remoteKill a env argument = onHost a (a.responder.requestKill env pid "") := by
  unfold remoteKill
  cases Go.parseUint (Go.trimSpace argument) 32 with
  | error => exact Or.inl rfl
  | ok => exact Or.inr ⟨_, rfl⟩

theorem applyCommand_cases (a : Agent) (cmd : Command) (env : Env) :
    (cmd.kind = "SET_RESPONSE_MODE" ∧
        applyCommand a cmd env =
          { a with responder := a.responder.setMode (parseMode cmd.argument) }) ∨
      (cmd.kind ≠ "SET_RESPONSE_MODE" ∧
        (applyCommand a cmd env = a ∨
          (∃ pid, applyCommand a cmd env = onHost a (a.responder.requestKill env pid "")) ∨
          ∃ ip, applyCommand a cmd env = onHost a (a.responder.requestNetworkBlock env ip))) := by
  unfold applyCommand
  split_ifs with hrules hmode hkill hblock
  · exact Or.inr ⟨by rw [hrules]; decide, Or.inl rfl⟩
  · exact Or.inl ⟨hmode, rfl⟩
  · refine Or.inr ⟨hmode, ?_⟩
    rcases remoteKill_eq a env cmd.argument with h | h
    · exact Or.inl h
    · exact Or.inr (Or.inl h)
  · exact Or.inr ⟨hmode, Or.inr (Or.inr ⟨_, rfl⟩)⟩
  · exact Or.inr ⟨hmode, Or.inl rfl⟩

theorem step_responder (a : Agent) (e : Event) :
    (step decode a e).responder =
      match e.request decode with
      | some m => a.responder.setMode m
      | none => a.responder := by
  cases e with
  | handleBegin => simp only [step, Event.request]; split <;> rfl
  | handleEnd => simp only [step, handleEnd, Event.request]; split <;> rfl
  | command cmd env =>
    simp only [step, Event.request]
    rcases applyCommand_cases a cmd env with ⟨hk, h⟩ | ⟨hk, h | ⟨pid, h⟩ | ⟨ip, h⟩⟩ <;>
      simp [h, hk]
  | pushed files => exact applyPolicy_eq files a.responder

theorem step_maxMode (a : Agent) (e : Event) :
    (step decode a e).responder.maxMode = a.responder.maxMode := by
  rw [step_responder]
  split <;> rfl

theorem step_mode (a : Agent) (e : Event) :
    (step decode a e).responder.mode =
      match e.request decode with
      | some m => clampMode m a.responder.maxMode
      | none => a.responder.mode := by
  rw [step_responder]
  split <;> rfl

theorem step_enforcement (a : Agent) (e : Event) :
    (step decode a e).enforcement = a.enforcement := by
  cases e with
  | handleBegin => simp only [step]; split <;> rfl
  | handleEnd => simp only [step, handleEnd]; split <;> rfl
  | command cmd env =>
    simp only [step]
    rcases applyCommand_cases a cmd env with ⟨-, h⟩ | ⟨-, h | ⟨pid, h⟩ | ⟨ip, h⟩⟩ <;> simp [h]
  | pushed => rfl

variable {a : Agent} {alert : Model.Alert} {cfg : Config}

theorem step_host (hmode : a.responder.mode < .enforce)
    (hplan : ∀ alert action, a.handling ≠ some (alert, .carryOut action)) (e : Event) :
    (step decode a e).host = a.host := by
  cases e with
  | handleBegin => simp only [step]; split <;> rfl
  | handleEnd =>
    simp only [step, handleEnd]
    split
    · rfl
    · next alert plan h =>
      -- the second half of `Handle` does not look at the mode again
      refine Responder.finish_host_of_not_carryOut a.host fun action hp => ?_
      exact hplan alert action (by rw [h, hp])
  | command cmd env =>
    simp only [step]
    rcases applyCommand_cases a cmd env with ⟨-, h⟩ | ⟨-, h | ⟨pid, h⟩ | ⟨ip, h⟩⟩ <;> rw [h]
    all_goals exact Responder.requested_host_of_lt hmode _ _ a.host
  | pushed => rfl

/-- What is in progress after an event was in progress before it, or has just been decided. -/
theorem handling_of_step {e : Event} {plan : Responder.Plan}
    (h : (step decode a e).handling = some (alert, plan)) :
    a.handling = some (alert, plan) ∨ e = .handleBegin alert ∧ plan = a.responder.plan alert := by
  cases e with
  | handleBegin =>
    simp only [step] at h
    split at h
    · -- the only event that takes a decision
      simp only [Option.some.injEq, Prod.mk.injEq] at h
      obtain ⟨rfl, rfl⟩ := h
      exact Or.inr ⟨rfl, rfl⟩
    · exact Or.inl h
  | handleEnd =>
    simp only [step, handleEnd] at h
    split at h
    · exact Or.inl h
    · cases h
  | command cmd env =>
    simp only [step] at h
    rcases applyCommand_cases a cmd env with ⟨-, hc⟩ | ⟨-, hc | ⟨pid, hc⟩ | ⟨ip, hc⟩⟩ <;>
      rw [hc] at h <;> exact Or.inl h
  | pushed => exact Or.inl h

/-- A decision to act that is in progress after an event was in progress before it, or was
taken in the mode `enforce`. -/
theorem step_handling {e : Event} {action : Action}
    (h : (step decode a e).handling = some (alert, .carryOut action)) :
    a.handling = some (alert, .carryOut action) ∨ a.responder.mode = .enforce := by
  rcases handling_of_step h with h | ⟨-, h⟩
  · exact Or.inl h
  · exact Or.inr (Responder.mode_of_plan_carryOut h.symm)

/-! ## The ceiling -/

theorem parseMode_value (mode : String) : (parseMode mode).value = Config.modeRank mode := by
  unfold parseMode Config.modeRank Config.modeDryRun Config.modeEnforce
  split_ifs <;> simp_all [Mode.value]

theorem modeValue_toNat (r : Config.Response) :
    r.modeValue.toNat = (parseMode r.mode).value := by
  unfold Config.Response.modeValue parseMode Config.modeDryRun Config.modeEnforce
  split_ifs <;> simp_all [Mode.value]

theorem parseMode_le_of_validate (h : cfg.validate = .ok ()) :
    parseMode cfg.response.mode ≤ parseMode cfg.response.maxMode := by
  have hmodes := (Config.validateModes_ok_iff _).mp (Config.validateModes_of_validate h)
  rw [Mode.le_iff, parseMode_value, parseMode_value]
  exact hmodes.2.2

/-- Both copies of the posture, and what has been decided and done, respect a ceiling. -/
structure WithinCeiling (ceiling : Mode) (a : Agent) : Prop where
  maxMode_eq : a.responder.maxMode = ceiling
  mode_le : a.responder.mode ≤ ceiling
  enforcement_le : ∀ o, a.enforcement = some o → o.enforceConfig.toNat ≤ ceiling.value
  handling_ne : ceiling < .enforce →
    ∀ alert action, a.handling ≠ some (alert, .carryOut action)
  effects_nil : ceiling < .enforce → a.host.effects = []

theorem start_withinCeiling (h : cfg.validate = .ok ()) (env : Lsm.LoadEnv) :
    WithinCeiling (parseMode cfg.response.maxMode) (start cfg env) where
  maxMode_eq := rfl
  mode_le := Responder.new_mode_le _ _ _
  enforcement_le := by
    intro o ho
    -- the mode map holds the configured mode, or zero if the write of it failed
    rw [(Lsm.startEnforcement_eq_some ho).2]
    split_ifs
    · rw [modeValue_toNat]
      exact parseMode_le_of_validate h
    · exact Nat.zero_le _
  handling_ne := fun _ _ _ h => by cases h
  effects_nil := fun _ => rfl

theorem step_withinCeiling {ceiling : Mode} (a : Agent) (e : Event)
    (ha : WithinCeiling ceiling a) : WithinCeiling ceiling (step decode a e) where
  maxMode_eq := by rw [step_maxMode, ha.maxMode_eq]
  mode_le := by
    rw [step_mode]
    split
    · rw [← ha.maxMode_eq]
      exact clampMode_le _ _
    · exact ha.mode_le
  enforcement_le := by
    rw [step_enforcement]
    exact ha.enforcement_le
  handling_ne := by
    intro hlt alert action h
    rcases step_handling h with h | h
    · exact ha.handling_ne hlt alert action h
    · exact (lt_of_le_of_lt ha.mode_le hlt).ne h
  effects_nil := by
    intro hlt
    rw [step_host (lt_of_le_of_lt ha.mode_le hlt) (ha.handling_ne hlt)]
    exact ha.effects_nil hlt

/-- The ceiling holds against every run: whatever alerts are handled, commands received and
policies pushed, neither the responder's mode nor the mode in the LSM map exceeds
`response.max_mode`, and with a ceiling below `enforce` no signal is sent and no `nft`
command is run. -/
theorem mode_le_max_mode (cfg : Config) (h : cfg.validate = .ok ()) (env : Lsm.LoadEnv)
    (es : List Event) :
    (run (step decode) (start cfg env) es).responder.mode ≤ parseMode cfg.response.maxMode ∧
      (∀ o, (run (step decode) (start cfg env) es).enforcement = some o →
        o.enforceConfig.toNat ≤ (parseMode cfg.response.maxMode).value) ∧
      (parseMode cfg.response.maxMode < .enforce →
        (run (step decode) (start cfg env) es).host.effects = []) := by
  have hinv : WithinCeiling (parseMode cfg.response.maxMode)
      (run (step decode) (start cfg env) es) :=
    run_invariant (start_withinCeiling h env) step_withinCeiling es
  exact ⟨hinv.mode_le, hinv.enforcement_le, hinv.effects_nil⟩

def configWith (mode maxMode : String) : Config :=
  { Config.defaults with response := { Config.defaults.response with mode, maxMode } }

/-- A host pinned to `dry-run` that is told to enforce and then to kill a process. -/
theorem mode_le_max_mode_dry_run :
    (configWith "dry-run" "dry-run").validate = .ok () ∧
      (run (step fun _ => .ok {}) (start (configWith "dry-run" "dry-run") (.obliging 700))
        [.command { kind := "SET_RESPONSE_MODE", argument := "enforce" } .obliging,
          .command { kind := "KILL_PROCESS", argument := "4123" } .obliging]).host.effects = [] :=
  ⟨by decide, (mode_le_max_mode _ (by decide) _ _).2.2 (by decide)⟩

/-! ## The kernel's copy -/

/-- The copies agree: a loaded enforcement object reads the responder's mode, and if that is
`off` it denies nothing. -/
def InSync (a : Agent) : Prop :=
  ∀ o, a.enforcement = some o →
    o.currentMode.toNat = a.responder.mode.value ∧
      (a.responder.mode = .off → ∀ op, ¬o.Denies op)

theorem inSync_iff (a : Agent) :
    InSync a ↔ ∀ o, a.enforcement = some o → o.currentMode.toNat = a.responder.mode.value := by
  refine ⟨fun h o ho => (h o ho).1, fun h o ho => ⟨h o ho, fun hoff op hden => ?_⟩⟩
  have hmode := h o ho
  -- a denial needs `enforce` in the map, and the responder is in `off`
  rw [Lsm.Object.currentMode_of_denies hden, hoff] at hmode
  exact absurd hmode (by decide)

theorem run_enforcement (a : Agent) (es : List Event) :
    (run (step decode) a es).enforcement = a.enforcement :=
  run_invariant (I := fun b : Agent => b.enforcement = a.enforcement) rfl
    (fun b e hb => by rw [step_enforcement, hb]) es

theorem run_maxMode (a : Agent) (es : List Event) :
    (run (step decode) a es).responder.maxMode = a.responder.maxMode :=
  run_invariant (I := fun b : Agent => b.responder.maxMode = a.responder.maxMode) rfl
    (fun b e hb => by rw [step_maxMode, hb]) es

theorem run_mode_of_requests {m : Mode} (hm : a.responder.mode = m) {es : List Event}
    (h : ∀ e ∈ es, ∀ r, e.request decode = some r → clampMode r a.responder.maxMode = m) :
    (run (step decode) a es).responder.mode = m := by
  induction es generalizing a with
  | nil => exact hm
  | cons e es ih =>
    refine ih ?_ fun f hf r hr => ?_
    · rw [step_mode]
      split
      · next r hr => exact h e mem_cons_self r hr
      · exact hm
    · rw [step_maxMode]
      exact h f (mem_cons_of_mem e hf) r hr

theorem start_mode (h : cfg.validate = .ok ()) (env : Lsm.LoadEnv) :
    (start cfg env).responder.mode = parseMode cfg.response.mode :=
  clampMode_of_le (parseMode_le_of_validate h)

theorem parseMode_ne_off {mode : String} (hvalid : Config.validModes mode = true)
    (h : mode ≠ Config.modeOff) : parseMode mode ≠ .off := by
  simp only [Config.validModes, mem_cons, not_mem_nil, or_false,
    decide_eq_true_eq] at hvalid
  rcases hvalid with hm | hm | hm
  · exact absurd hm h
  all_goals rw [hm]; decide

theorem start_currentMode_iff (h : cfg.validate = .ok ()) {env : Lsm.LoadEnv} {o : Lsm.Object}
    (ho : Lsm.startEnforcement cfg env = some o) :
    o.currentMode.toNat = (parseMode cfg.response.mode).value ↔
      Lsm.succeeded env.putMode = true := by
  obtain ⟨hne, hmode⟩ := Lsm.startEnforcement_eq_some ho
  unfold Lsm.Object.currentMode
  rw [hmode]
  have hvalid := ((Config.validateModes_ok_iff _).mp (Config.validateModes_of_validate h)).1
  have hoff := parseMode_ne_off hvalid hne
  split_ifs with hput
  · simp [modeValue_toNat, hput]
  · -- an unwritten map reads `off`, which is not the configured mode
    simp only [hput]
    refine iff_of_false (fun hzero => hoff (Mode.value_injective ?_)) (by simp)
    exact hzero.symm

/-- The LSM programs read the responder's mode in every state of a run exactly when the agent
has no enforcement object loaded, or the write of its mode map succeeded at start-up and every
posture the run asks for comes out, clamped, as the one the agent started in. -/
theorem lsm_mode_in_sync_iff (cfg : Config) (h : cfg.validate = .ok ()) (env : Lsm.LoadEnv)
    (es : List Event) :
    (∀ pre, pre <+: es → InSync (run (step decode) (start cfg env) pre)) ↔
      Lsm.startEnforcement cfg env = none ∨
        (Lsm.succeeded env.putMode = true ∧
          ∀ e ∈ es, ∀ m, e.request decode = some m →
            clampMode m (parseMode cfg.response.maxMode) = parseMode cfg.response.mode) := by
  simp only [inSync_iff, run_enforcement]
  show (∀ pre, pre <+: es → ∀ o, Lsm.startEnforcement cfg env = some o → _) ↔ _
  cases ho : Lsm.startEnforcement cfg env with
  | none => simp
  | some o =>
    have hstart := start_currentMode_iff h ho
    simp only [Option.some.injEq, forall_eq', reduceCtorEq, false_or]
    constructor
    · intro hsync
      have h0 : o.currentMode.toNat = (parseMode cfg.response.mode).value := by
        have := hsync [] nil_prefix
        rwa [run_nil, start_mode h] at this
      refine ⟨hstart.mp h0, fun e he m hm => ?_⟩
      -- the run up to and including the request
      obtain ⟨before, after, rfl⟩ := append_of_mem he
      have hmode := hsync (before ++ [e]) ⟨after, by simp⟩
      rw [run_concat, step_mode, hm, run_maxMode] at hmode
      exact Mode.value_injective (hmode.symm.trans h0)
    · rintro ⟨hput, hreq⟩ pre hpre
      rw [run_mode_of_requests (start_mode h env)
        fun e he m hm => hreq e (hpre.subset he) m hm]
      exact hstart.mpr hput

/-- A run of an enforcing host that is only ever told to enforce stays in sync. -/
theorem lsm_mode_in_sync_enforcing :
    (configWith "enforce" "enforce").validate = .ok () ∧
      ∀ pre, pre <+: [.command { kind := "SET_RESPONSE_MODE", argument := "enforce" } .obliging] →
        InSync (run (step fun _ => .ok {})
          (start (configWith "enforce" "enforce") (.obliging 700)) pre) :=
  ⟨by decide, (lsm_mode_in_sync_iff _ (by decide) _ _).mpr (Or.inr ⟨rfl, by decide⟩)⟩

/-- Told to switch to `off`, an enforcing agent's responder does, and its LSM programs go on
denying: an exec from `/tmp`, and the `SIGTERM` that is to stop the agent. -/
theorem lsm_denies_after_off :
    (configWith "enforce" "enforce").validate = .ok () ∧
      ∃ o, (run (step fun _ => .ok {}) (start (configWith "enforce" "enforce") (.obliging 700))
          [.command { kind := "SET_RESPONSE_MODE", argument := "off" } .obliging]).enforcement
            = some o ∧
        (run (step fun _ => .ok {}) (start (configWith "enforce" "enforce") (.obliging 700))
          [.command { kind := "SET_RESPONSE_MODE", argument := "off" } .obliging]).responder.mode
            = .off ∧
        o.currentMode = Lsm.modeEnforce ∧
        (o.check (.exec (Go.ascii "/tmp/x")) true 0).1 = Lsm.eperm ∧
        (o.check (.signal 700 1 Lsm.sigterm) true 0).1 = Lsm.eperm :=
  ⟨by decide, _, rfl, by decide, by decide, by decide, by decide⟩

end ArgusEdr.Posture
