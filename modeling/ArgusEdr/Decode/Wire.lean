import ArgusEdr.Lib.Layout
import ArgusEdr.Model.Event

/-!
# Events on the wire (`internal/decode`, `bpf/common.h`)

A sensor in the kernel fills `struct event` and the agent decodes its bytes. The two describe one
record independently: `KernelEvent` is the structure of `common.h`, laid out by the rules of C, and
`decode` reads at the offsets the decoder has. The texts of an event are bytes, in no particular
encoding. `Event` has the fields the decoder and the enrichers set.
-/

namespace ArgusEdr.Decode

open Go (Bytes)
open Layout (ByteOrder Member slice)
open Model

/-! ## Events -/

/-- `EventType`, which mirrors `enum event_type`. -/
inductive EventType where
  | exec | fork | exit | open_ | unlink | rename | chmod | connect | accept | execBlocked | ptrace
  | kmod | bpf | memfd | mmapExec | privChange | dns | tamper
  | unknown (n : UInt32)
deriving Repr, DecidableEq

def EventType.ofWire (n : UInt32) : EventType :=
  match n.toNat with
  | 1 => .exec
  | 2 => .fork
  | 3 => .exit
  | 4 => .open_
  | 5 => .unlink
  | 6 => .rename
  | 7 => .chmod
  | 8 => .connect
  | 9 => .accept
  | 10 => .execBlocked
  | 11 => .ptrace
  | 12 => .kmod
  | 13 => .bpf
  | 14 => .memfd
  | 15 => .mmapExec
  | 16 => .privChange
  | 17 => .dns
  | 18 => .tamper
  | _ => .unknown n

def EventType.action : EventType → String
  | .exec => "exec"
  | .fork => "fork"
  | .exit => "exit"
  | .open_ => "open"
  | .unlink => "unlink"
  | .rename => "rename"
  | .chmod => "chmod"
  | .connect => "connect"
  | .accept => "accept"
  | .execBlocked => "exec_blocked"
  | .ptrace => "ptrace"
  | .kmod => "module_load"
  | .bpf => "bpf"
  | .memfd => "memfd_create"
  | .mmapExec => "mmap_exec"
  | .privChange => "setuid"
  | .dns => "dns"
  | .tamper => "tamper"
  | .unknown _ => "unknown"

structure Process where
  pid : UInt32
  tid : UInt32 := 0
  ppid : UInt32 := 0
  name : Bytes := []
  executable : Bytes := []
  commandLine : Bytes := []
  args : List Bytes := []
  exitCode : Int32 := 0
  startTimeNs : UInt64 := 0
  sha256 : String := ""
  stdioSocket : Bool := false
  yaraMatches : List String := []
  parentName : Bytes := []
  parentExecutable : Bytes := []
  ancestors : List Bytes := []
deriving Repr, DecidableEq

structure File where
  path : Bytes := []
  target : Bytes := []
  flags : UInt16 := 0
  mode : UInt16 := 0
deriving Repr, DecidableEq

structure Network where
  family : UInt16 := 0
  srcIP : String := ""
  srcPort : UInt16 := 0
  dstIP : String := ""
  dstPort : UInt16 := 0
  domain : Bytes := []
deriving Repr, DecidableEq

structure Event where
  schemaVersion : String := "1.0"
  timestamp : Time := 0
  monotonicNs : UInt64
  host : String := ""
  type : EventType
  action : String := type.action
  cgroupID : UInt64 := 0
  ret : Int32 := 0
  process : Process
  user : User := {}
  file : File := {}
  network : Network := {}
  container : Container := {}
  syscall : Syscall := {}
deriving Repr, DecidableEq

def processKey (pid : UInt32) (startTimeNs : UInt64) : String :=
  Go.formatUint pid.toNat ++ ":" ++ Go.formatUint startTimeNs.toNat

def Event.processKey (e : Event) : String :=
  Decode.processKey e.process.pid e.process.startTimeNs

/-! ## The structure of the kernel -/

/-- `struct event`. -/
structure KernelEvent where
  timestampNs : UInt64 := 0
  cgroupID : UInt64 := 0
  type : UInt32
  pid : UInt32 := 0
  tid : UInt32 := 0
  ppid : UInt32 := 0
  uid : UInt32 := 0
  gid : UInt32 := 0
  ret : Int32 := 0
  argsLen : UInt32 := 0
  sport : UInt16 := 0
  dport : UInt16 := 0
  family : UInt16 := 0
  fmode : UInt16 := 0
  saddr : Vector UInt8 16 := Vector.replicate 16 0
  daddr : Vector UInt8 16 := Vector.replicate 16 0
  comm : Vector UInt8 16 := Vector.replicate 16 0
  filename : Vector UInt8 256 := Vector.replicate 256 0
  args : Vector UInt8 512 := Vector.replicate 512 0
  domain : Vector UInt8 256 := Vector.replicate 256 0

def KernelEvent.members (e : KernelEvent) (order : ByteOrder) : List Member :=
  [.int order 8 e.timestampNs.toNat, .int order 8 e.cgroupID.toNat,
   .int order 4 e.type.toNat, .int order 4 e.pid.toNat, .int order 4 e.tid.toNat,
   .int order 4 e.ppid.toNat, .int order 4 e.uid.toNat, .int order 4 e.gid.toNat,
   .int order 4 e.ret.toUInt32.toNat, .int order 4 e.argsLen.toNat,
   .int order 2 e.sport.toNat, .int order 2 e.dport.toNat,
   .int order 2 e.family.toNat, .int order 2 e.fmode.toNat,
   .array e.saddr, .array e.daddr, .array e.comm, .array e.filename, .array e.args,
   .array e.domain]

/-! ## The decoder -/

def commLen := 16
def filenameLen := 256
def argsLen := 512
def domainLen := 256
def addrLen := 16
def wireSize := 1128
def afINet6 : UInt16 := 10

def offTimestamp := 0
def offCgroupID := 8
def offType := 16
def offPID := 20
def offTID := 24
def offPPID := 28
def offUID := 32
def offRet := 40
def offArgsLen := 44
def offSport := 48
def offDport := 50
def offFamily := 52
def offFmode := 54
def offSaddr := 56
def offDaddr := offSaddr + addrLen
def offComm := offDaddr + addrLen
def offFilename := offComm + commLen
def offArgs := offFilename + filenameLen
def offDomain := offArgs + argsLen

/-- What the decoder takes from outside: the byte order of the host, and `IP.String` of an address
of 16 bytes. -/
structure Environment where
  order : ByteOrder
  ipString : Bytes → String

structure Decoder where
  bootUnixNano : Int64 := 0
  hostname : String := ""

def indexZero (b : Bytes) : Option ℕ := b.findIdx? (· == 0)

def cstr (b : Bytes) : Bytes :=
  match indexZero b with
  | some i => b.take i
  | none => b

def parseArgs (blob : Bytes) (used : UInt32) : List Bytes :=
  let blob := if used.toNat < blob.length then blob.take used.toNat else blob
  (blob.splitOn 0).filter (· ≠ [])

/-- The loop of `parseDNSName` over the labels of the queried name; none for a malformed one. -/
def dnsLabels : Bytes → Option (List Bytes)
  | [] => some []
  | length :: rest =>
    if length = 0 then some []
    -- a longer label, or one that is cut off, makes the whole name empty
    else if 63 < length.toNat ∨ rest.length < length.toNat then none
    else (dnsLabels (rest.drop length.toNat)).map (rest.take length.toNat :: ·)
termination_by labels => labels.length
decreasing_by
  rw [List.length_drop, List.length_cons]
  omega

/-- `parseDNSName`, behind the header of the message. -/
def parseDNSName (query : Bytes) : Bytes :=
  if query.length ≤ 12 then []
  else ([46] : Bytes).intercalate ((dnsLabels (query.drop 12)).getD [])

def allZero (b : Bytes) : Bool := b.all (· == 0)

section
variable (env : Environment)

/-- `ipv4`; `net.IPv4` puts the address into the 16-byte form. -/
def ipv4 (b : Bytes) : String :=
  if allZero b then "" else env.ipString ([0, 0, 0, 0, 0, 0, 0, 0, 0, 0, 255, 255] ++ b)

def ipv6 (b : Bytes) : String := if allZero b then "" else env.ipString b

def ipAddr (family : UInt16) (b : Bytes) : String :=
  if family = afINet6 then ipv6 env b else ipv4 env (b.take 4)

def uint16 (raw : Bytes) (pos : ℕ) : UInt16 := UInt16.ofNat (env.order.value (slice raw pos 2))

def uint32 (raw : Bytes) (pos : ℕ) : UInt32 := UInt32.ofNat (env.order.value (slice raw pos 4))

def uint64 (raw : Bytes) (pos : ℕ) : UInt64 := UInt64.ofNat (env.order.value (slice raw pos 8))

def applyTypeSpecific (event : Event) (raw : Bytes) : Event :=
  let filename := cstr (slice raw offFilename filenameLen)
  let mode := uint16 env raw offFmode
  let request := mode.toUInt64.toInt64
  match event.type with
  | .exec | .execBlocked =>
    let args := parseArgs (slice raw offArgs argsLen) (uint32 env raw offArgsLen)
    { event with
      process :=
        { event.process with
          executable := filename
          startTimeNs := event.monotonicNs
          args := args
          commandLine := ([32] : Bytes).intercalate args } }
  | .exit => { event with process := { event.process with exitCode := event.ret } }
  | .open_ => { event with file := { path := filename, flags := mode } }
  | .unlink => { event with file := { path := filename } }
  | .rename =>
    { event with file := { path := filename, target := cstr (slice raw offArgs argsLen) } }
  | .chmod => { event with file := { path := filename, mode := mode } }
  | .connect | .accept =>
    let family := uint16 env raw offFamily
    { event with
      network :=
        { family := family
          srcIP := ipAddr env family (slice raw offSaddr addrLen)
          srcPort := uint16 env raw offSport
          dstIP := ipAddr env family (slice raw offDaddr addrLen)
          dstPort := uint16 env raw offDport } }
  | .ptrace =>
    -- `ret` is the target of the call
    { event with syscall := { request := request, targetPID := event.ret.toUInt32 } }
  -- the name of the module or of the memfd
  | .kmod | .memfd => { event with file := { path := filename } }
  | .bpf | .mmapExec => { event with syscall := { request := request } }
  -- the id asked for
  | .privChange => { event with syscall := { newUID := event.ret.toUInt32 } }
  | .dns =>
    -- the sensor reports IPv4 queries only
    { event with
      network :=
        { family := uint16 env raw offFamily
          dstIP := ipv4 env (slice raw offDaddr 4)
          dstPort := uint16 env raw offDport
          domain := parseDNSName (slice raw offDomain domainLen) } }
  | .tamper => { event with syscall := { request := request } }
  | .fork | .unknown _ => event

def Decoder.decode (d : Decoder) (raw : Bytes) : Except Go.Error Event :=
  if raw.length < wireSize then
    .error (.errorf "short event: got %d bytes, want %d"
      [Go.formatUint raw.length, Go.formatUint wireSize])
  else
    let monotonic := uint64 env raw offTimestamp
    let type := EventType.ofWire (uint32 env raw offType)
    .ok (applyTypeSpecific env
      { monotonicNs := monotonic
        timestamp := unixEpoch + (d.bootUnixNano + monotonic.toInt64).toInt
        host := d.hostname
        type := type
        cgroupID := uint64 env raw offCgroupID
        ret := (uint32 env raw offRet).toInt32
        process :=
          { pid := uint32 env raw offPID
            tid := uint32 env raw offTID
            ppid := uint32 env raw offPPID
            name := cstr (slice raw offComm commLen) }
        user := { id := uint32 env raw offUID } } raw)

end

end ArgusEdr.Decode
