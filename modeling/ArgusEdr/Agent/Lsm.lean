import ArgusEdr.Agent.Config

/-!
# Kernel enforcement (`bpf/edr_lsm.bpf.c`, `internal/bpfloader`)

The LSM object has four programs, which can deny an operation before it happens, and three maps
userspace fills. `Object` is a loaded object: its maps and the programs that are attached. Each program
returns its verdict and the record it submits, if the ring buffer has room; `Object.check` is the verdict
the kernel gets. `loadEnforcement`, every step of which may fail, is the only writer of the maps.
-/

namespace ArgusEdr.Lsm

open Go (Bytes Error)

/-! ## The maps -/

def modeOff : UInt32 := 0
def modeDryRun : UInt32 := 1
def modeEnforce : UInt32 := 2

inductive Program where
  | bprmCheck | taskKill | ptraceGuard | fileOpenGuard
deriving Repr, DecidableEq

/-- A loaded enforcement object. An array map holds zero until it is written; `credReaders`
are the keys of the hash map. -/
structure Object where
  enforceConfig : UInt32 := 0
  protectedPid : UInt32 := 0
  credReaders : List Bytes := []
  attached : List Program := []
deriving Repr, DecidableEq

namespace Object

def currentMode (o : Object) : UInt32 := o.enforceConfig

def guardedPid (o : Object) : UInt32 := o.protectedPid

end Object

/-! ## Reading kernel strings -/

/-- `bpf_probe_read_kernel_str` into a zeroed buffer of `size` bytes: the string up to its
terminator, cut to leave room for one, and zeros. -/
def readStr (size : ℕ) (src : Bytes) : Bytes :=
  let text := (src.takeWhile (· != 0)).take (size - 1)
  text ++ List.replicate (size - text.length) 0

def taskCommLen : ℕ := 16

def maxFilenameLen : ℕ := 256

def isTempPath (path : Bytes) : Bool :=
  (readStr 8 path).take 5 == Go.ascii "/tmp/"

/-- The buffer is exactly one of the two names, up to its terminator. -/
def isShadowBasename (base : Bytes) : Bool :=
  base.take 7 == Go.ascii "shadow" ++ [0] || base.take 8 == Go.ascii "gshadow" ++ [0]

/-! ## The programs -/

inductive RecordType where
  | execBlocked | tamper | opened
deriving Repr, DecidableEq

/-- The record of a hit: what the programs fill in besides the identity of the actor. -/
structure Record where
  type : RecordType
  filename : Bytes := []
  fmode : UInt16 := 0
  ret : ℤ
deriving Repr, DecidableEq

def eperm : ℤ := -1

/-- How every program ends on a hit: the record, if there is room for it, and the verdict. -/
def hit (mode : UInt32) (room : Bool) (record : ℤ → Record) : ℤ × Option Record :=
  let verdict := if mode = modeEnforce then eperm else 0
  (verdict, if room then some (record verdict) else none)

def bprmCheck (o : Object) (filename : Bytes) (room : Bool) (ret : ℤ) : ℤ × Option Record :=
  -- an earlier hook has denied the operation already
  if ret ≠ 0 then (ret, none)
  else if o.currentMode = modeOff then (0, none)
  else if ¬isTempPath filename then (0, none)
  else hit o.currentMode room fun verdict =>
    { type := .execBlocked, filename := readStr maxFilenameLen filename, ret := verdict }

/-- Whether an operation by `actor` on `target` is against the agent, and not by it. -/
def againstAgent (o : Object) (target actor : UInt32) : Bool :=
  o.guardedPid ≠ 0 && target == o.guardedPid && actor != o.guardedPid

def sigkill : Int32 := 9
def sigterm : Int32 := 15
def sigstop : Int32 := 19

def taskKill (o : Object) (target sender : UInt32) (sig : Int32) (room : Bool) (ret : ℤ) :
    ℤ × Option Record :=
  if ret ≠ 0 then (ret, none)
  else if ¬againstAgent o target sender then (0, none)
  else if sig ≠ sigkill ∧ sig ≠ sigterm ∧ sig ≠ sigstop then (0, none)
  else if o.currentMode = modeOff then (0, none)
  else hit o.currentMode room fun verdict =>
    { type := .tamper, fmode := sig.toUInt32.toUInt16, ret := verdict }

def ptraceGuard (o : Object) (target tracer : UInt32) (ptraceMode : UInt32) (room : Bool)
    (ret : ℤ) : ℤ × Option Record :=
  if ret ≠ 0 then (ret, none)
  else if ¬againstAgent o target tracer then (0, none)
  else if o.currentMode = modeOff then (0, none)
  else hit o.currentMode room fun verdict =>
    { type := .tamper, fmode := ptraceMode.toUInt16, ret := verdict }

def isAllowedReader (o : Object) (comm : Bytes) : Bool :=
  readStr taskCommLen comm ∈ o.credReaders

def fileOpenGuard (o : Object) (name parent comm : Bytes) (room : Bool) (ret : ℤ) :
    ℤ × Option Record :=
  if ret ≠ 0 then (ret, none)
  else if o.currentMode = modeOff then (0, none)
  else if ¬isShadowBasename (readStr 8 name) then (0, none)
  else if readStr 4 parent ≠ Go.ascii "etc" ++ [0] then (0, none)
  else if isAllowedReader o comm then (0, none)
  else hit o.currentMode room fun verdict =>
    { type := .opened
      filename := Go.ascii "/etc/" ++ readStr (maxFilenameLen - 5) name
      ret := verdict }

/-- An operation the kernel asks the programs about: an exec, a signal, a ptrace attach and
an open, with what the program reads of it. -/
inductive Operation where
  | exec (filename : Bytes)
  | signal (target sender : UInt32) (sig : Int32)
  | ptrace (target tracer ptraceMode : UInt32)
  | openFile (name parent comm : Bytes)
deriving Repr, DecidableEq

def Operation.program : Operation → Program
  | .exec _ => .bprmCheck
  | .signal .. => .taskKill
  | .ptrace .. => .ptraceGuard
  | .openFile .. => .fileOpenGuard

namespace Object

/-- What the programs make of an operation on which earlier hooks returned `ret`. -/
def check (o : Object) (op : Operation) (room : Bool) (ret : ℤ) : ℤ × Option Record :=
  if op.program ∈ o.attached then
    match op with
    | .exec filename => bprmCheck o filename room ret
    | .signal target sender sig => taskKill o target sender sig room ret
    | .ptrace target tracer ptraceMode => ptraceGuard o target tracer ptraceMode room ret
    | .openFile name parent comm => fileOpenGuard o name parent comm room ret
  else (ret, none)

/-- The programs deny an operation that the earlier hooks allowed. -/
def Denies (o : Object) (op : Operation) : Prop := ∃ room, (o.check op room 0).1 ≠ 0

theorem hit_fst (mode : UInt32) (room : Bool) (record : ℤ → Record) :
    (hit mode room record).1 = if mode = modeEnforce then eperm else 0 := rfl

theorem currentMode_of_denies {o : Object} {op : Operation} (h : o.Denies op) :
    o.currentMode = modeEnforce := by
  obtain ⟨room, hroom⟩ := h
  by_contra hmode
  apply hroom
  unfold check
  split_ifs with hp
  · cases op <;>
      simp only [bprmCheck, taskKill, ptraceGuard, fileOpenGuard] <;>
      split_ifs <;> simp_all [hit_fst]
  · rfl

end Object

/-! ## Loading -/

/-- What the kernel answers while the object is loaded and attached. A map or a program an
older object lacks is one for which `has…` is false; `putReader` is the answer of a map that
is not full. -/
structure LoadEnv where
  loadCollection : Except Error Unit
  putMode : Except Error Unit
  hasProtectedPid : Bool
  putPid : Except Error Unit
  pid : UInt32
  hasCredReaders : Bool
  putReader : String → Except Error Unit
  hasProgram : Program → Bool
  attach : Program → Except Error Unit

/-- A kernel on which every step of the load succeeds, for an agent with the given pid. -/
def LoadEnv.obliging (pid : UInt32) : LoadEnv where
  loadCollection := .ok ()
  putMode := .ok ()
  hasProtectedPid := true
  putPid := .ok ()
  pid := pid
  hasCredReaders := true
  putReader := fun _ => .ok ()
  hasProgram := fun _ => true
  attach := fun _ => .ok ()

def succeeded (result : Except Error Unit) : Bool := result matches .ok ()

/-- The key of a comm: its bytes in a zeroed buffer of `taskCommLen`. -/
def commKey (comm : String) : Bytes :=
  let bytes := comm.toUTF8.data.toList.take taskCommLen
  bytes ++ List.replicate (taskCommLen - bytes.length) 0

/-- `max_entries` of `cred_readers`. -/
def credReadersMax : ℕ := 64

/-- Put one comm into the map: a full map still takes a key it has, and refuses a new one. -/
def putCredReader (env : LoadEnv) (keys : List Bytes) (comm : String) : List Bytes :=
  if ¬succeeded (env.putReader comm) then keys
  else if commKey comm ∈ keys then keys
  else if keys.length < credReadersMax then keys ++ [commKey comm]
  else keys

/-- A refused comm is logged, and the ones after it are still tried. -/
def loadCredReaderAllowlist (env : LoadEnv) (credReaders : List String) : List Bytes :=
  if env.hasCredReaders then credReaders.foldl (putCredReader env) [] else []

def lsmPrograms : List Program := [.bprmCheck, .taskKill, .ptraceGuard, .fileOpenGuard]

/-- `loadEnforcement`: best effort; a failed step is logged and the next one tried. -/
def loadEnforcement (enforceMode : UInt32) (credReaders : List String) (env : LoadEnv) :
    Option Object :=
  if ¬succeeded env.loadCollection then none
  else some
    { enforceConfig := if succeeded env.putMode then enforceMode else 0
      protectedPid := if env.hasProtectedPid && succeeded env.putPid then env.pid else 0
      credReaders := loadCredReaderAllowlist env credReaders
      attached := lsmPrograms.filter fun p => env.hasProgram p && succeeded (env.attach p) }

/-- The enforcement object, next to the sensor object, that is loaded at start-up; none in
the mode `off`. -/
def enforcementObject (cfg : Config) : Option String :=
  if cfg.response.mode = Config.modeOff then none else some "edr_lsm.bpf.o"

/-- The enforcement part of `buildSource` and `EBPFSource.Run`: a replay source loads
nothing. -/
def startEnforcement (cfg : Config) (env : LoadEnv) : Option Object :=
  if cfg.input.source = Config.sourceReplay then none
  else
    match enforcementObject cfg with
    | none => none
    | some _ => loadEnforcement cfg.response.modeValue cfg.response.credReaderAllowlist env

theorem loadEnforcement_enforceConfig {mode : UInt32} {readers : List String} {env : LoadEnv}
    {o : Object} (h : loadEnforcement mode readers env = some o) :
    o.enforceConfig = if succeeded env.putMode then mode else 0 := by
  unfold loadEnforcement at h
  split at h
  · cases h
  · cases h
    rfl

/-- What a loaded object's mode map holds: the configured mode, or zero if the write of it
failed; and the configured mode is not `off`. -/
theorem startEnforcement_eq_some {cfg : Config} {env : LoadEnv} {o : Object}
    (h : startEnforcement cfg env = some o) :
    cfg.response.mode ≠ Config.modeOff ∧
      o.enforceConfig = if succeeded env.putMode then cfg.response.modeValue else 0 := by
  unfold startEnforcement enforcementObject at h
  split_ifs at h with hsource hmode
  exact ⟨hmode, loadEnforcement_enforceConfig h⟩

end ArgusEdr.Lsm
