import ArgusEdr.Go.Text

/-!
# Events and alerts (`internal/model`)

The unified event every sensor decodes into, the rule-visible fields of it, and the alert a
rule raises. A field accessor yields a string, an integer (numeric fields are normalised to
`int64` by the source) or a boolean, or nothing when the field is absent.
-/

namespace ArgusEdr.Model

/-- A point in time, in nanoseconds. -/
abbrev Time := ℤ

/-- `time.Unix(0, 0)`: the zero time is the first instant of the year 1. -/
def unixEpoch : Time := 62135596800 * 1000000000

/-- `UnixNano`, which wraps around. -/
def Time.unixNano (t : Time) : ℤ := (t - unixEpoch).bmod (2 ^ 64)

/-- `Time.Sub`: the time from `u` to `t`, as far as a `time.Duration` reaches. -/
def Time.sub (t u : Time) : ℤ := max (-2 ^ 63) (min (2 ^ 63 - 1) (t - u))

theorem Time.sub_self (t : Time) : Time.sub t t = 0 := by
  simp [Time.sub]

theorem Time.sub_le_sub {t t' u u' : Time} (ht : t ≤ t') (hu : u' ≤ u) :
    Time.sub t u ≤ Time.sub t' u' :=
  max_le_max le_rfl (min_le_min le_rfl (Int.sub_le_sub ht hu))

theorem Time.sub_nonneg {t u : Time} (h : u ≤ t) : 0 ≤ Time.sub t u := by
  rw [← Time.sub_self u]
  exact Time.sub_le_sub h le_rfl

/-- An ordered alert level. `unset` is the zero value, which no rule can have. -/
inductive Severity where
  | unset | low | medium | high | critical
deriving Repr, DecidableEq

def Severity.string : Severity → String
  | .low => "low"
  | .medium => "medium"
  | .high => "high"
  | .critical => "critical"
  | .unset => "unknown"

/-- A rule's textual severity as the ordered type. -/
def parseSeverity (text : String) : Except Go.Error Severity :=
  if text = "low" then .ok .low
  else if text = "medium" then .ok .medium
  else if text = "high" then .ok .high
  else if text = "critical" then .ok .critical
  else .error (.errorf "unknown severity %q (want low|medium|high|critical)" [text])

structure Process where
  pid : UInt32 := 0
  ppid : UInt32 := 0
  name : String := ""
  executable : String := ""
  commandLine : String := ""
  sha256 : String := ""
  stdioSocket : Bool := false
  yaraMatches : List String := []
  parentName : String := ""
  parentExecutable : String := ""
  startTimeNs : UInt64 := 0
deriving Repr, DecidableEq

structure File where
  path : String := ""
  target : String := ""
  flags : UInt16 := 0
  mode : UInt16 := 0
deriving Repr, DecidableEq

structure Network where
  srcIP : String := ""
  srcPort : UInt16 := 0
  dstIP : String := ""
  dstPort : UInt16 := 0
  domain : String := ""
deriving Repr, DecidableEq

structure User where
  id : UInt32 := 0
  name : String := ""
deriving Repr, DecidableEq

structure Syscall where
  request : Int64 := 0
  targetPID : UInt32 := 0
  newUID : UInt32 := 0
deriving Repr, DecidableEq

structure Container where
  id : String := ""
  runtime : String := ""
deriving Repr, DecidableEq

/-- The unified record. `anomalyPercent` is the anomaly score on the 0–100 integer scale,
the only form in which rules read it. -/
structure Event where
  timestamp : Time := 0
  host : String := ""
  action : String := ""
  process : Process := {}
  user : User := {}
  file : File := {}
  network : Network := {}
  container : Container := {}
  syscall : Syscall := {}
  anomalyPercent : Int64 := 0
deriving Repr, DecidableEq

def Event.processKey (e : Event) : String :=
  Go.formatUint e.process.pid.toNat ++ ":" ++ Go.formatUint e.process.startTimeNs.toNat

/-! ## Rule-visible fields -/

/-- What a field accessor returns when the field is present. -/
inductive FieldValue where
  | str (s : String)
  | int (n : ℤ)
  | bool (b : Bool)
deriving Repr, DecidableEq

/-- A string field is present when it is not empty. -/
def textField (s : String) : Option FieldValue := if s = "" then none else some (.str s)

/-- A field the source reports present only when it is not zero. -/
def nonzeroField (n : ℕ) : Option FieldValue := if n = 0 then none else some (.int n)

/-- The dotted paths rules use and the event fields behind them. -/
def fieldAccessors : List (String × (Event → Option FieldValue)) :=
  [("event.type", fun e => textField e.action),
   ("event.action", fun e => textField e.action),
   ("host.name", fun e => textField e.host),
   ("process.pid", fun e => some (.int e.process.pid.toNat)),
   ("process.ppid", fun e => some (.int e.process.ppid.toNat)),
   ("process.name", fun e => textField e.process.name),
   ("process.executable", fun e => textField e.process.executable),
   ("process.command_line", fun e => textField e.process.commandLine),
   ("process.stdio_socket", fun e => some (.bool e.process.stdioSocket)),
   ("process.hash.sha256", fun e => textField e.process.sha256),
   ("yara.matched", fun e =>
      if e.process.yaraMatches = [] then none
      else some (.str (String.intercalate "," e.process.yaraMatches))),
   ("process.parent.name", fun e => textField e.process.parentName),
   ("process.parent.executable", fun e => textField e.process.parentExecutable),
   ("user.id", fun e => some (.int e.user.id.toNat)),
   ("user.name", fun e => textField e.user.name),
   ("file.path", fun e => textField e.file.path),
   ("file.target", fun e => textField e.file.target),
   ("file.flags", fun e => some (.int e.file.flags.toNat)),
   ("file.mode", fun e => some (.int e.file.mode.toNat)),
   ("source.ip", fun e => textField e.network.srcIP),
   ("source.port", fun e => nonzeroField e.network.srcPort.toNat),
   ("destination.ip", fun e => textField e.network.dstIP),
   ("destination.port", fun e => nonzeroField e.network.dstPort.toNat),
   ("dns.question.name", fun e => textField e.network.domain),
   ("container.id", fun e => textField e.container.id),
   ("container.runtime", fun e => textField e.container.runtime),
   ("syscall.request", fun e => some (.int e.syscall.request.toInt)),
   ("syscall.target_pid", fun e => nonzeroField e.syscall.targetPID.toNat),
   ("syscall.new_uid", fun e => some (.int e.syscall.newUID.toNat)),
   ("anomaly.score", fun e => some (.int e.anomalyPercent.toInt))]

/-- `Event.Field`: a dotted rule path resolved against the event. -/
def Event.field (e : Event) (path : String) : Option FieldValue :=
  (fieldAccessors.lookup path).bind fun accessor => accessor e

def knownField (path : String) : Bool := (fieldAccessors.lookup path).isSome

theorem field_event_type (e : Event) : e.field "event.type" = textField e.action := rfl

theorem field_event_action (e : Event) : e.field "event.action" = textField e.action := rfl

theorem field_event_action_isSome {e : Event} (h : e.action ≠ "") :
    (e.field "event.action").isSome = true := by
  rw [field_event_action, textField, if_neg h]
  rfl

/-! ## Alerts -/

structure Technique where
  id : String := ""
  name : String := ""
  tactic : String := ""
deriving Repr, DecidableEq

/-- The result text of a response. `failed err` is the text `failed: ` followed by the text
of the error. -/
inductive ResponseResult where
  | text (s : String)
  | failed (err : Go.Error)
deriving Repr, DecidableEq

/-- What the responder did about an alert. -/
structure ResponseRecord where
  action : String
  result : ResponseResult
deriving Repr, DecidableEq

structure Alert where
  ruleID : String := ""
  ruleName : String := ""
  severity : Severity := .unset
  technique : Technique := {}
  riskScore : ℤ := 0
  event : Event := {}
  response : Option ResponseRecord := none
  requestedAction : String := ""
deriving Repr, DecidableEq

end ArgusEdr.Model
