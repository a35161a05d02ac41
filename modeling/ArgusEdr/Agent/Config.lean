import ArgusEdr.Go.Text

/-!
# Agent configuration (`internal/config`)

The settings `validate` reads and the agent's start-up uses, their defaults, and `validate`: a sequence
of checks (`require`) that stops at the first one that fails. `tickerPeriods_pos` says for which
accepted settings every ticker of the agent has a positive period.
-/

namespace ArgusEdr
namespace Config

/-! ## Response modes -/

def modeOff := "off"
def modeDryRun := "dry-run"
def modeEnforce := "enforce"

def sourceEBPF := "ebpf"
def sourceReplay := "replay"

/-! ## Settings -/

structure Agent where
  logLevel : String
deriving DecidableEq

structure Input where
  source : String
  bpfObject : String
  ringBufferBytes : ℤ
  replayFile : String
deriving DecidableEq

structure Correlation where
  enabled : Bool
  incidentThreshold : ℤ
deriving DecidableEq

structure Detection where
  rulesDir : String
  correlation : Correlation
deriving DecidableEq

structure SelfProtection where
  enabled : Bool
  integrityIntervalSeconds : ℤ
  watchdogTimeoutSeconds : ℤ
deriving DecidableEq

structure Response where
  mode : String
  maxMode : String
  allowlistPaths : List String
  credReaderAllowlist : List String
  selfProtection : SelfProtection
deriving DecidableEq

structure Output where
  type : String
  format : String
  path : String
  endpoint : String
deriving DecidableEq

structure Fleet where
  enabled : Bool
  serverAddress : String
  serverName : String
  caFile : String
  certFile : String
  keyFile : String
  heartbeatSeconds : ℤ
deriving DecidableEq

structure Intel where
  enabled : Bool
  feeds : List String
deriving DecidableEq

structure Anomaly where
  enabled : Bool
  baselineFile : String
deriving DecidableEq

structure Yara where
  enabled : Bool
  rulesDir : String
deriving DecidableEq

structure Metrics where
  enabled : Bool
  address : String
deriving DecidableEq

end Config

structure Config where
  agent : Config.Agent
  input : Config.Input
  detection : Config.Detection
  response : Config.Response
  outputs : List Config.Output
  fleet : Config.Fleet
  intel : Config.Intel
  anomaly : Config.Anomaly
  yara : Config.Yara
  metrics : Config.Metrics
deriving DecidableEq

namespace Config

/-- `Defaults`: the configuration used when no file overrides a value. -/
def defaults : Config where
  agent := { logLevel := "info" }
  input :=
    { source := sourceEBPF
      bpfObject := "/usr/lib/argus/edr.bpf.o"
      ringBufferBytes := 8 * 1024 * 1024
      replayFile := "" }
  detection :=
    { rulesDir := "/etc/argus/rules"
      correlation := { enabled := true, incidentThreshold := 75 } }
  response :=
    { mode := modeOff
      maxMode := ""
      allowlistPaths := ["/usr/lib/systemd/systemd", "/usr/sbin/sshd"]
      credReaderAllowlist :=
        ["sshd", "login", "su", "sudo", "passwd", "chpasswd", "unix_chkpwd", "systemd-logind",
         "agetty", "gdm-session-wor", "polkitd", "useradd", "usermod", "gpasswd", "chage"]
      selfProtection :=
        { enabled := true, integrityIntervalSeconds := 300, watchdogTimeoutSeconds := 300 } }
  outputs := [{ type := "stdout", format := "ecs", path := "", endpoint := "" }]
  fleet :=
    { enabled := false, serverAddress := "", serverName := "", caFile := "", certFile := "",
      keyFile := "", heartbeatSeconds := 30 }
  intel := { enabled := false, feeds := [] }
  anomaly := { enabled := false, baselineFile := "" }
  yara := { enabled := false, rulesDir := "" }
  metrics := { enabled := false, address := "127.0.0.1:9464" }

/-- The last step of `Load` before validation: an empty `max_mode` becomes `mode`. -/
def fillMaxMode (c : Config) : Config :=
  if c.response.maxMode = "" then
    { c with response := { c.response with maxMode := c.response.mode } }
  else c

/-! ## Validation -/

/-- One check of `validate`: the error unless the condition holds. -/
def require (ok : Bool) (err : Go.Error) : Except Go.Error Unit :=
  if ok then .ok () else .error err

def validModes (mode : String) : Bool := mode ∈ [modeOff, modeDryRun, modeEnforce]

/-- The order of the postures; a text that is no posture has rank zero. -/
def modeRank (mode : String) : ℕ :=
  if mode = modeDryRun then 1 else if mode = modeEnforce then 2 else 0

/-- `TASK_COMM_LEN - 1`. -/
def maxCommLen : ℕ := 15

/-- Allowlist entries the kernel could never match are refused. -/
def validateCredReaders (c : Config) : Except Go.Error Unit :=
  c.response.credReaderAllowlist.forM fun comm => do
    require (comm ≠ "") (.errorf "response.cred_reader_allowlist contains an empty comm" [])
    require (comm.utf8ByteSize ≤ maxCommLen)
      (.errorf "response.cred_reader_allowlist entry %q exceeds %d chars (the kernel truncates comm)"
        [comm, toString maxCommLen])

/-- An `eventstore` sink reuses `format` as the backend selector. -/
def validateEventStoreOutput (index : ℕ) (out : Output) : Except Go.Error Unit :=
  if out.type ≠ "eventstore" then .ok ()
  else if out.format = "" ∨ out.format = "memory" then .ok ()
  else if out.format = "sqlite" then
    require (out.path ≠ "")
      (.errorf "outputs[%d] (eventstore) requires a path when format=sqlite" [toString index])
  else
    .error (.errorf "outputs[%d] (eventstore) format %q invalid (want memory|sqlite)"
      [toString index, out.format])

def validateOutput (out : Output) (index : ℕ) : Except Go.Error Unit := do
  require (out.type ∈ ["stdout", "file", "loki", "sqlite", "eventstore"])
    (.errorf "outputs[%d].type %q invalid (want stdout|file|loki|sqlite|eventstore)"
      [toString index, out.type])
  require (¬(out.type = "file" ∧ out.path = ""))
    (.errorf "outputs[%d] (file) requires a path" [toString index])
  require (¬(out.type = "sqlite" ∧ out.path = ""))
    (.errorf "outputs[%d] (sqlite) requires a path" [toString index])
  require (¬(out.type = "loki" ∧ out.endpoint = ""))
    (.errorf "outputs[%d] (loki) requires an endpoint" [toString index])
  validateEventStoreOutput index out

def validateOutputs (c : Config) : Except Go.Error Unit :=
  c.outputs.zipIdx.forM fun entry => validateOutput entry.1 entry.2

/-- The control-plane settings are checked only when the fleet is enabled. -/
def validateFleet (c : Config) : Except Go.Error Unit :=
  if ¬c.fleet.enabled then .ok ()
  else do
    [("fleet.server_address", c.fleet.serverAddress), ("fleet.server_name", c.fleet.serverName),
      ("fleet.ca_file", c.fleet.caFile), ("fleet.cert_file", c.fleet.certFile),
      ("fleet.key_file", c.fleet.keyFile)].forM fun field =>
        require (field.2 ≠ "") (.errorf "%s is required when fleet.enabled is true" [field.1])
    require (0 < c.fleet.heartbeatSeconds) (.errorf "fleet.heartbeat_seconds must be positive" [])

/-- The posture part of `validate`: both modes are known and the starting one does not
exceed the ceiling. -/
def validateModes (r : Response) : Except Go.Error Unit := do
  require (validModes r.mode)
    (.errorf "response.mode %q invalid (want off|dry-run|enforce)" [r.mode])
  require (validModes r.maxMode)
    (.errorf "response.max_mode %q invalid (want off|dry-run|enforce)" [r.maxMode])
  require (modeRank r.mode ≤ modeRank r.maxMode)
    (.errorf "response.mode %q exceeds response.max_mode %q" [r.mode, r.maxMode])

def validateSelfProtection (sp : SelfProtection) : Except Go.Error Unit :=
  if ¬sp.enabled then .ok ()
  else do
    require (0 < sp.integrityIntervalSeconds)
      (.errorf "response.self_protection.integrity_interval_seconds must be positive" [])
    require (0 < sp.watchdogTimeoutSeconds)
      (.errorf "response.self_protection.watchdog_timeout_seconds must be positive" [])

def validate (c : Config) : Except Go.Error Unit := do
  require (c.agent.logLevel ∈ ["debug", "info", "warn", "error"])
    (.errorf "agent.log_level %q invalid (want debug|info|warn|error)" [c.agent.logLevel])
  require (c.input.source ∈ [sourceEBPF, sourceReplay])
    (.errorf "input.source %q invalid (want ebpf|replay)" [c.input.source])
  require (¬(c.input.source = sourceReplay ∧ c.input.replayFile = ""))
    (.errorf "input.replay_file is required when source=replay" [])
  require (0 < c.input.ringBufferBytes) (.errorf "input.ring_buffer_bytes must be positive" [])
  validateModes c.response
  validateCredReaders c
  validateSelfProtection c.response.selfProtection
  require (¬(c.detection.correlation.enabled ∧ c.detection.correlation.incidentThreshold ≤ 0))
    (.errorf "detection.correlation.incident_threshold must be positive" [])
  require (c.outputs ≠ []) (.errorf "at least one output is required" [])
  validateOutputs c
  validateFleet c
  require (¬(c.intel.enabled ∧ c.intel.feeds = []))
    (.errorf "intel.feeds is required when intel.enabled is true" [])
  require (¬(c.anomaly.enabled ∧ c.anomaly.baselineFile = ""))
    (.errorf "anomaly.baseline_file is required when anomaly.enabled is true" [])
  require (¬(c.yara.enabled ∧ c.yara.rulesDir = ""))
    (.errorf "yara.rules_dir is required when yara.enabled is true" [])
  require (¬(c.metrics.enabled ∧ c.metrics.address = ""))
    (.errorf "metrics.address is required when metrics.enabled is true" [])

/-- `Response.ModeValue`: the integer the LSM enforcement map expects. -/
def Response.modeValue (r : Response) : UInt32 :=
  if r.mode = modeDryRun then 1 else if r.mode = modeEnforce then 2 else 0

/-! ## What a passed validation guarantees -/

@[simp] theorem require_ok_iff (ok : Bool) (err : Go.Error) :
    require ok err = .ok () ↔ ok = true := by
  cases ok <;> simp [require]

theorem bind_ok_iff {f : Unit → Except Go.Error Unit} {x : Except Go.Error Unit} :
    (x >>= f) = .ok () ↔ x = .ok () ∧ f () = .ok () := by
  cases x with
  | error | ok => simp [bind, Except.bind]

theorem validateModes_ok_iff (r : Response) :
    validateModes r = .ok () ↔
      validModes r.mode = true ∧ validModes r.maxMode = true ∧
        modeRank r.mode ≤ modeRank r.maxMode := by
  simp only [validateModes, bind_ok_iff, require_ok_iff, decide_eq_true_eq]

theorem validateModes_of_validate {c : Config} (h : validate c = .ok ()) :
    validateModes c.response = .ok () := by
  simp only [validate, bind_ok_iff] at h
  exact h.2.2.2.2.1

theorem validate_defaults : validate (fillMaxMode defaults) = .ok () := by decide

/-! ## The tickers of a started agent -/

/-- `time.Duration(n) * time.Second`: the nanoseconds wrap at 64 bits. -/
def seconds (n : ℤ) : ℤ := (n * 1000000000).bmod (2 ^ 64)

/-- The periods of the tickers that `startFleet` and `buildSelfProtection` lead to: the heartbeat
interval, half the watchdog timeout and, if the agent could hash its own binary, the integrity
interval. `NewTicker` panics for one that is not positive. -/
def tickerPeriods (c : Config) (hashed : Bool) : List ℤ :=
  (if c.fleet.enabled then [seconds c.fleet.heartbeatSeconds] else []) ++
    if c.response.selfProtection.enabled then
      (seconds c.response.selfProtection.watchdogTimeoutSeconds).tdiv 2 ::
        if hashed then [seconds c.response.selfProtection.integrityIntervalSeconds] else []
    else []

def tickerSeconds (c : Config) : List ℤ :=
  (if c.fleet.enabled then [c.fleet.heartbeatSeconds] else []) ++
    if c.response.selfProtection.enabled then
      [c.response.selfProtection.watchdogTimeoutSeconds,
        c.response.selfProtection.integrityIntervalSeconds]
    else []

theorem seconds_eq (n : ℤ) :
    seconds n = n * 1000000000 % 2 ^ 64 ∧ n * 1000000000 % 2 ^ 64 < 2 ^ 63 ∨
      seconds n = n * 1000000000 % 2 ^ 64 - 2 ^ 64 ∧ 2 ^ 63 ≤ n * 1000000000 % 2 ^ 64 := by
  have hmod : ((2 ^ 64 : ℕ) : ℤ) = 2 ^ 64 := by norm_num
  rw [seconds, Int.bmod_def, hmod]
  generalize n * 1000000000 % 2 ^ 64 = m
  split_ifs with h
  · exact .inl ⟨rfl, by omega⟩
  · exact .inr ⟨rfl, by omega⟩

theorem seconds_pos_iff (n : ℤ) :
    0 < seconds n ↔ 0 < n * 1000000000 % 2 ^ 64 ∧ n * 1000000000 % 2 ^ 64 < 2 ^ 63 := by
  have hwrap : n * 1000000000 % 2 ^ 64 < 2 ^ 64 := Int.emod_lt_of_pos _ (by norm_num)
  obtain ⟨heq, hlt⟩ | ⟨heq, hle⟩ := seconds_eq n
  · rw [heq, and_iff_left hlt]
  · rw [heq, sub_pos]
    exact iff_of_false hwrap.not_gt fun h => hle.not_gt h.2

-- A number of seconds is even in nanoseconds, wrapped or not, so that halving keeps the sign.
theorem half_seconds_pos_iff (n : ℤ) : 0 < (seconds n).tdiv 2 ↔ 0 < seconds n := by
  have heven : 2 ∣ seconds n := by
    obtain ⟨heq, -⟩ | ⟨heq, -⟩ := seconds_eq n
    all_goals omega
  rw [Int.tdiv_eq_ediv_of_dvd heven]
  omega

theorem tickerSeconds_pos {c : Config} (h : validate c = .ok ()) : ∀ n ∈ c.tickerSeconds, 0 < n := by
  simp only [validate, bind_ok_iff] at h
  obtain ⟨-, -, -, -, -, -, hprotection, -, -, -, hfleet, -⟩ := h
  unfold tickerSeconds
  intro n hn
  obtain hn | hn := List.mem_append.mp hn
  · split_ifs at hn with henabled
    · simp_all [validateFleet, bind_ok_iff]
    · simp at hn
  · split_ifs at hn with henabled
    · simp only [validateSelfProtection, henabled, bind_ok_iff, require_ok_iff, decide_eq_true_eq,
        not_true_eq_false, if_false] at hprotection
      simp only [List.mem_cons, List.not_mem_nil, or_false] at hn
      omega
    · simp at hn

theorem tickerPeriods_pos_iff (c : Config) :
    (∀ hashed, ∀ period ∈ c.tickerPeriods hashed, 0 < period) ↔
      ∀ n ∈ c.tickerSeconds, 0 < seconds n := by
  unfold tickerPeriods tickerSeconds
  cases c.fleet.enabled <;> cases c.response.selfProtection.enabled <;>
    simp +contextual [half_seconds_pos_iff]

/-- Every ticker of an accepted configuration has a positive period if no setting it is created
from exceeds 9223372036 seconds, and in general exactly if the nanoseconds of each of them, modulo
`2 ^ 64`, are a positive signed number. -/
theorem tickerPeriods_pos {c : Config} (h : validate c = .ok ()) :
    ((∀ n ∈ c.tickerSeconds, n ≤ 9223372036) →
      ∀ hashed, ∀ period ∈ c.tickerPeriods hashed, 0 < period) ∧
    ((∀ hashed, ∀ period ∈ c.tickerPeriods hashed, 0 < period) ↔
      ∀ n ∈ c.tickerSeconds, 0 < n * 1000000000 % 2 ^ 64 ∧ n * 1000000000 % 2 ^ 64 < 2 ^ 63) := by
  simp only [tickerPeriods_pos_iff, seconds_pos_iff, iff_self, and_true]
  intro hle n hn
  have hpos := tickerSeconds_pos h n hn
  have hmax := hle n hn
  rw [Int.emod_eq_of_lt (by omega) (by omega)]
  omega

def fleetDefaults (heartbeatSeconds : ℤ) : Config :=
  { fillMaxMode defaults with
    fleet :=
      { enabled := true, serverAddress := "a:1", serverName := "a", caFile := "ca", certFile := "crt",
        keyFile := "key", heartbeatSeconds } }

theorem tickerPeriods_pos_of_defaults :
    validate (fleetDefaults 30) = .ok () ∧
      ∀ hashed, ∀ period ∈ (fleetDefaults 30).tickerPeriods hashed, 0 < period :=
  ⟨by decide, (tickerPeriods_pos (by decide)).1 (by decide)⟩

/-- A heartbeat that is accepted and makes the ticker panic. -/
theorem tickerPeriods_negative :
    validate (fleetDefaults 9223372037) = .ok () ∧
      -9223372036709551616 ∈ (fleetDefaults 9223372037).tickerPeriods true := by
  decide

end Config
end ArgusEdr
