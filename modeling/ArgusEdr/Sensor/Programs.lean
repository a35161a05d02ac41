import ArgusEdr.Agent.Lsm
import ArgusEdr.Decode.Wire

/-!
# The sensors in the kernel (`bpf/edr.bpf.c`, `bpf/credfile.h`)

Each program runs in the context of a task, fills a `struct event` and hands it to the agent. These are
the programs that follow the life of a task, the one that watches the credential files, and the records of
the enforcement programs as they stand in the ring buffer (`enforcementEvent`). What is left in `domain`
from an earlier use of the memory, which is not cleared, is an argument.
-/

namespace ArgusEdr.Sensor

open Go (Bytes)
open Decode (KernelEvent)

/-! ## Tasks and memory -/

/-- What the helpers show of a task. A task is a thread: `pid` is its own id and `tgid` the id of its
thread group, which is the id of the task that leads the group. -/
structure Task where
  pid : UInt32
  tgid : UInt32
  parentTgid : UInt32 := 0
  uid : UInt32 := 0
  gid : UInt32 := 0
  comm : Vector UInt8 16 := Vector.replicate 16 0
  cgroupID : UInt64 := 0
  exitCode : Int32 := 0

/-- The task leads its thread group. -/
def Task.IsLeader (t : Task) : Prop := t.pid = t.tgid

instance (t : Task) : Decidable t.IsLeader := inferInstanceAs (Decidable (t.pid = t.tgid))

def Task.id (t : Task) : UInt64 := t.tgid.toUInt64 <<< 32 ||| t.pid.toUInt64

/-- The moment a program runs: the clock, and what an earlier event has left in `domain`. -/
structure Moment where
  now : UInt64
  stale : Vector UInt8 256 := Vector.replicate 256 0

/-- What `bpf_probe_read_user_str` and `bpf_probe_read_kernel_str` copy into `size` bytes: the string
up to its terminator, cut to leave room for one. -/
def stringRead (size : ℕ) (src : Bytes) : Bytes := (src.takeWhile (· != 0)).take (size - 1)

/-- The memory after the copy to the offset `off`. What lies behind the terminator stays. -/
def writeStr {n : ℕ} (buf : Vector UInt8 n) (off size : ℕ) (src : Bytes) : Vector UInt8 n :=
  let read := stringRead size src
  Vector.ofFn fun i =>
    if i.val < off ∨ off + read.length < i.val then buf.get i else (read[i.val - off]?).getD 0

/-! ## Filling an event -/

def eventExec : UInt32 := 1
def eventFork : UInt32 := 2
def eventExit : UInt32 := 3
def eventOpen : UInt32 := 4
def eventExecBlocked : UInt32 := 10
def eventTamper : UInt32 := 18

def newEvent (m : Moment) (current : Task) (type : UInt32) : KernelEvent where
  type := type
  timestampNs := m.now
  cgroupID := current.cgroupID
  pid := current.tgid
  tid := current.pid
  uid := current.uid
  gid := current.gid
  ppid := current.parentTgid
  comm := current.comm
  domain := m.stale

/-- `reserve_event` of the enforcement object, which does not set the parent. -/
def reserveEvent (m : Moment) (current : Task) (type : UInt32) : KernelEvent where
  type := type
  timestampNs := m.now
  cgroupID := current.cgroupID
  pid := current.tgid
  tid := current.pid
  uid := current.uid
  gid := current.gid
  comm := current.comm
  domain := m.stale

/-! ## Arguments -/

def maxArgsLen : ℕ := 512
def maxArgvCount : ℕ := 32

structure ArgvBuf where
  len : UInt32 := 0
  data : Vector UInt8 512 := Vector.replicate 512 0

/-- The loop of `handle_execve`, with the rounds that are left, over the strings the pointers point
to. The end of the list is the null pointer. -/
def packArgs : ℕ → List Bytes → Vector UInt8 512 → ℕ → Vector UInt8 512 × ℕ
  | 0, _, data, off => (data, off)
  | _ + 1, [], data, off => (data, off)
  | rounds + 1, arg :: argv, data, off =>
    if maxArgsLen - 1 ≤ off then (data, off)
    else
      -- the mask is for the verifier
      let off := off &&& (maxArgsLen - 1)
      let n := (stringRead (maxArgsLen - off) arg).length + 1
      packArgs rounds argv (writeStr data off (maxArgsLen - off) arg) (off + n)

def captureArgv (argv : List Bytes) : ArgvBuf :=
  let packed := packArgs maxArgvCount argv (Vector.replicate 512 0) 0
  { len := UInt32.ofNat packed.2, data := packed.1 }

abbrev ArgvCache := Std.ExtTreeMap UInt64 ArgvBuf

/-- `max_entries` of `argv_cache`. -/
def argvCacheMax : ℕ := 8192

/-- `handle_execve`: a full map refuses a new key. -/
def handleExecve (cache : ArgvCache) (current : Task) (argv : List Bytes) : ArgvCache :=
  if current.id ∈ cache ∨ cache.size < argvCacheMax then cache.insert current.id (captureArgv argv)
  else cache

def handleExec (cache : ArgvCache) (m : Moment) (current : Task) (filename : Bytes) :
    ArgvCache × KernelEvent :=
  let e := newEvent m current eventExec
  let e := { e with filename := writeStr e.filename 0 256 filename }
  match cache[current.id]? with
  | some buf => (cache.erase current.id, { e with args := buf.data, argsLen := buf.len })
  | none => (cache, e)

/-! ## The life of a task -/

def handleFork (m : Moment) (current : Task) (childPid parentPid : UInt32) (childComm : Bytes) :
    KernelEvent :=
  let e := newEvent m current eventFork
  { e with
    pid := childPid
    tid := childPid
    ppid := parentPid
    comm := writeStr e.comm 0 16 childComm }

/-- `handle_exit`: only the leader of a thread group is reported. -/
def handleExit (cache : ArgvCache) (m : Moment) (current : Task) : ArgvCache × Option KernelEvent :=
  let e := newEvent m current eventExit
  if e.pid ≠ e.tid then (cache, none)
  else (cache.erase current.id, some { e with ret := current.exitCode >>> 8 })

/-! ## Credential files -/

/-- `handle_file_open`, for the file `name` in the directory `parent`. -/
def handleFileOpen (m : Moment) (current : Task) (name parent : Bytes) : Option KernelEvent :=
  if ¬Lsm.isShadowBasename (Lsm.readStr 8 name) then none
  else if Lsm.readStr 4 parent ≠ Go.ascii "etc" ++ [0] then none
  else
    let e := newEvent m current eventOpen
    let directory : Vector UInt8 256 :=
      Vector.ofFn fun i => ((Go.ascii "/etc/")[i.val]?).getD (e.filename.get i)
    some { e with filename := writeStr directory 5 (256 - 5) name }

/-! ## Records of the enforcement programs -/

def recordType : Lsm.RecordType → UInt32
  | .execBlocked => eventExecBlocked
  | .tamper => eventTamper
  | .opened => eventOpen

/-- The record of a hit as it is submitted. -/
def enforcementEvent (m : Moment) (current : Task) (r : Lsm.Record) : KernelEvent :=
  { reserveEvent m current (recordType r.type) with
    filename := Vector.ofFn fun i => (r.filename[i.val]?).getD 0
    fmode := r.fmode
    ret := Int32.ofInt r.ret }

end ArgusEdr.Sensor
