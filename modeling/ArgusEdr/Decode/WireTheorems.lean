import ArgusEdr.Decode.Wire

/-!
# The decoder agrees with the structure of the kernel

`KernelEvent.reported` says what an event means in terms of the members of `struct event`; no offset
occurs in it. `decode_reported`: the decoder gives that event for every piece of memory that holds the
structure. A DNS query is shown with an IPv4 address whatever its family.
-/

namespace ArgusEdr.Decode

open KernelEvent (members)
open List hiding Vector
open EventType (ofWire)
open Go (Bytes)
open Layout
open Model

/-! ## What the members mean -/

/-- A C string: it ends at the first NUL. -/
def text {n : ℕ} (a : Vector UInt8 n) : Bytes := a.toList.takeWhile (· ≠ 0)

section
variable (env : Environment)

/-- An address of a family. IPv4 is in the first 4 bytes; nothing but zeros is no address. -/
def address (family : UInt16) (a : Vector UInt8 16) : String :=
  if family = 10 then if ∀ b ∈ a.toList, b = 0 then "" else env.ipString a.toList
  else if ∀ b ∈ a.toList.take 4, b = 0 then ""
  else env.ipString (List.replicate 10 0 ++ [255, 255] ++ a.toList.take 4)

namespace KernelEvent

/-- The arguments of a program: what stands between the NULs in the used bytes. -/
def argv (e : KernelEvent) : List Bytes :=
  ((e.args.toList.take e.argsLen.toNat).splitOn 0).filter (· ≠ [])

def process (e : KernelEvent) : Process :=
  let actor : Process := { pid := e.pid, tid := e.tid, ppid := e.ppid, name := text e.comm }
  match ofWire e.type with
  | .exec | .execBlocked =>
    { actor with
      executable := text e.filename
      startTimeNs := e.timestampNs
      args := e.argv
      commandLine := ([32] : Bytes).intercalate e.argv }
  | .exit => { actor with exitCode := e.ret }
  | _ => actor

def file (e : KernelEvent) : File :=
  match ofWire e.type with
  | .open_ => { path := text e.filename, flags := e.fmode }
  | .rename => { path := text e.filename, target := text e.args }
  | .chmod => { path := text e.filename, mode := e.fmode }
  | .unlink | .kmod | .memfd => { path := text e.filename }
  | _ => {}

def network (e : KernelEvent) : Network :=
  match ofWire e.type with
  | .connect | .accept =>
    { family := e.family
      srcIP := address env e.family e.saddr
      srcPort := e.sport
      dstIP := address env e.family e.daddr
      dstPort := e.dport }
  | .dns =>
    -- the family 2 is `AF_INET`
    { family := e.family
      dstIP := address env 2 e.daddr
      dstPort := e.dport
      domain := parseDNSName e.domain.toList }
  | _ => {}

def syscall (e : KernelEvent) : Syscall :=
  match ofWire e.type with
  | .ptrace => { request := e.fmode.toUInt64.toInt64, targetPID := e.ret.toUInt32 }
  | .bpf | .mmapExec | .tamper => { request := e.fmode.toUInt64.toInt64 }
  | .privChange => { newUID := e.ret.toUInt32 }
  | _ => {}

def reported (e : KernelEvent) (d : Decoder) : Event where
  timestamp := unixEpoch + (d.bootUnixNano + e.timestampNs.toInt64).toInt
  monotonicNs := e.timestampNs
  host := d.hostname
  type := ofWire e.type
  cgroupID := e.cgroupID
  ret := e.ret
  process := e.process
  user := { id := e.uid }
  file := e.file
  network := e.network env
  syscall := e.syscall

end KernelEvent

/-! ## Where the members stand -/

theorem offsets_members (e : KernelEvent) (order : ByteOrder) :
    offsets 0 (e.members order) =
      List.zip [0, 8, 16, 20, 24, 28, 32, 36, 40, 44, 48, 50, 52, 54, 56, 72, 88, 104, 360, 872]
        (e.members order) := by
  simp [members, offsets, roundUp, Member.int, Member.array]

theorem packed_members (e : KernelEvent) (order : ByteOrder) : Packed 0 (e.members order) := by
  simp [members, Packed, roundUp, Member.int, Member.array]

theorem sizeof_members (e : KernelEvent) (order : ByteOrder) :
    sizeof (e.members order) = 1128 := by
  simp [members, sizeof, stop, alignment, roundUp, Member.int, Member.array]

theorem sum_size_members (e : KernelEvent) (order : ByteOrder) :
    ((e.members order).map Member.size).sum = sizeof (e.members order) := by
  rw [sizeof_members]
  simp [members, Member.int, Member.array]

theorem image_members (e : KernelEvent) (order : ByteOrder) :
    Image (e.members order) ((e.members order).flatMap Member.bytes) :=
  image_of_packed (packed_members e order) (sum_size_members e order).symm

/-! ## Reading a member -/

theorem cstr_eq_takeWhile (b : Bytes) : cstr b = b.takeWhile (· ≠ 0) := by
  induction b with
  | nil => rfl
  | cons c b ih =>
    rw [cstr, indexZero] at ih ⊢
    by_cases hc : c = 0
    · simp [findIdx?_cons, hc]
    · rw [findIdx?_cons, takeWhile_cons, if_neg (by simpa using hc),
        if_pos (by simpa using hc), ← ih]
      cases b.findIdx? (· == 0) with
      | none | some => rfl

theorem slice_take (raw : Bytes) (pos : ℕ) {m n : ℕ} (h : m ≤ n) :
    slice raw pos m = (slice raw pos n).take m := by
  rw [slice, slice, take_take, Nat.min_eq_left h]

variable {env} {raw : Bytes} {pos : ℕ}

theorem uint16_eq {x : UInt16} (h : slice raw pos 2 = env.order.bytes 2 x.toNat) :
    uint16 env raw pos = x := by
  rw [uint16, h, ByteOrder.value_bytes, Nat.mod_eq_of_lt (by exact x.toNat_lt),
    UInt16.ofNat_toNat]

theorem uint32_eq {x : UInt32} (h : slice raw pos 4 = env.order.bytes 4 x.toNat) :
    uint32 env raw pos = x := by
  rw [uint32, h, ByteOrder.value_bytes, Nat.mod_eq_of_lt (by exact x.toNat_lt),
    UInt32.ofNat_toNat]

theorem uint64_eq {x : UInt64} (h : slice raw pos 8 = env.order.bytes 8 x.toNat) :
    uint64 env raw pos = x := by
  rw [uint64, h, ByteOrder.value_bytes, Nat.mod_eq_of_lt (by exact x.toNat_lt),
    UInt64.ofNat_toNat]

theorem allZero_iff (b : Bytes) : allZero b = true ↔ ∀ c ∈ b, c = 0 := by
  simp [allZero]

theorem ipAddr_eq_address (family : UInt16) (a : Vector UInt8 16) :
    ipAddr env family a.toList = address env family a := by
  simp only [ipAddr, address, ipv4, ipv6, afINet6, allZero_iff]
  rfl

theorem ipv4_eq_address (a : Vector UInt8 16) : ipv4 env (a.toList.take 4) = address env 2 a :=
  ipAddr_eq_address 2 a

theorem parseArgs_eq_argv (e : KernelEvent) : parseArgs e.args.toList e.argsLen = e.argv := by
  rw [parseArgs, KernelEvent.argv]
  by_cases h : e.argsLen.toNat < e.args.toList.length
  · rw [if_pos h]
  · rw [if_neg h, take_of_length_le (not_lt.mp h)]

/-! ## The decoder -/

/-- What the decoder reads from an image, member by member. -/
structure Reads (env : Environment) (e : KernelEvent) (raw : Bytes) : Prop where
  timestampNs : uint64 env raw offTimestamp = e.timestampNs
  cgroupID : uint64 env raw offCgroupID = e.cgroupID
  type : uint32 env raw offType = e.type
  pid : uint32 env raw offPID = e.pid
  tid : uint32 env raw offTID = e.tid
  ppid : uint32 env raw offPPID = e.ppid
  uid : uint32 env raw offUID = e.uid
  ret : (uint32 env raw offRet).toInt32 = e.ret
  argsLen : uint32 env raw offArgsLen = e.argsLen
  sport : uint16 env raw offSport = e.sport
  dport : uint16 env raw offDport = e.dport
  family : uint16 env raw offFamily = e.family
  fmode : uint16 env raw offFmode = e.fmode
  saddr : slice raw offSaddr addrLen = e.saddr.toList
  daddr : slice raw offDaddr addrLen = e.daddr.toList
  comm : slice raw offComm commLen = e.comm.toList
  filename : slice raw offFilename filenameLen = e.filename.toList
  args : slice raw offArgs Decode.argsLen = e.args.toList
  domain : slice raw offDomain domainLen = e.domain.toList

theorem reads_of_image {e : KernelEvent} (h : Image (e.members env.order) raw) :
    Reads env e raw := by
  have hmem := h.2
  rw [offsets_members] at hmem
  simp only [members, zip_cons_cons, zip_nil_right, forall_mem_cons,
    Member.int, Member.array] at hmem
  -- one fact per member, named by its offset; the group id at 36 is not read
  obtain ⟨h0, h8, h16, h20, h24, h28, h32, _, h40, h44, h48, h50, h52, h54, h56, h72, h88, h104,
    h360, h872, _⟩ := hmem
  exact
    { timestampNs := uint64_eq h0
      cgroupID := uint64_eq h8
      type := uint32_eq h16
      pid := uint32_eq h20
      tid := uint32_eq h24
      ppid := uint32_eq h28
      uid := uint32_eq h32
      ret := by
        have hret : uint32 env raw offRet = e.ret.toUInt32 := uint32_eq h40
        rw [hret, Int32.toInt32_toUInt32]
      argsLen := uint32_eq h44
      sport := uint16_eq h48
      dport := uint16_eq h50
      family := uint16_eq h52
      fmode := uint16_eq h54
      saddr := h56
      daddr := h72
      comm := h88
      filename := h104
      args := h360
      domain := h872 }

theorem Reads.decode {e : KernelEvent} (h : Reads env e raw) (hlen : raw.length = 1128)
    (d : Decoder) : d.decode env raw = .ok (e.reported env d) := by
  -- a DNS event is read from the first four bytes of the member
  have hdst : slice raw offDaddr 4 = e.daddr.toList.take 4 := by
    rw [slice_take raw offDaddr (show 4 ≤ addrLen by decide), h.daddr]
  rw [Decoder.decode, if_neg (by rw [hlen]; decide)]
  simp only [applyTypeSpecific, h.timestampNs, h.cgroupID, h.type, h.pid, h.tid, h.ppid, h.uid,
    h.ret, h.argsLen, h.sport, h.dport, h.family, h.fmode, h.saddr, h.daddr, h.comm, h.filename,
    h.args, h.domain, hdst, cstr_eq_takeWhile, ipAddr_eq_address, ipv4_eq_address,
    parseArgs_eq_argv]
  simp only [KernelEvent.reported, KernelEvent.process, KernelEvent.file, KernelEvent.network,
    KernelEvent.syscall]
  -- both sides are one event for each type
  generalize ofWire e.type = type
  cases type <;> rfl

theorem decode_members (d : Decoder) (e : KernelEvent) :
    d.decode env ((e.members env.order).flatMap Member.bytes) = .ok (e.reported env d) := by
  have himage := image_members e env.order
  exact (reads_of_image himage).decode (himage.1.trans (sizeof_members e env.order)) d

/-- The structure has no padding, neither between its members nor behind the last one, and the
decoder reports every event the way its type assigns the members. -/
theorem decode_reported (d : Decoder) (e : KernelEvent) (h : Image (e.members env.order) raw) :
    Packed 0 (e.members env.order) ∧
      ((e.members env.order).map Member.size).sum = sizeof (e.members env.order) ∧
      sizeof (e.members env.order) = 1128 ∧
      d.decode env raw = .ok (e.reported env d) := by
  have hsize := sizeof_members e env.order
  refine ⟨packed_members e env.order, sum_size_members e env.order, hsize, ?_⟩
  exact (reads_of_image h).decode (h.1.trans hsize) d

end

/-! ## An address of each family -/

/-- An x86-64 host, with the texts of the addresses that occur below. -/
def linux : Environment where
  order := .little
  ipString b :=
    if b = [0x20, 0x01, 0x0d, 0xb8, 0, 0, 0, 0, 0, 0, 0, 0, 0, 0, 0, 1] then "2001:db8::1"
    else if b = [0, 0, 0, 0, 0, 0, 0, 0, 0, 0, 255, 255, 32, 1, 13, 184] then "32.1.13.184"
    else "?"

/-- A packet to 2001:db8::1. -/
def toIPv6 (type : UInt32) (dport : UInt16) : KernelEvent where
  type := type
  pid := 4242
  dport := dport
  family := 10
  daddr := #v[0x20, 0x01, 0x0d, 0xb8, 0, 0, 0, 0, 0, 0, 0, 0, 0, 0, 0, 1]

theorem decode_reported_connect :
    ∃ raw event, Image ((toIPv6 8 443).members linux.order) raw ∧
      ({} : Decoder).decode linux raw = .ok event ∧ event.process.pid = 4242 ∧
      event.network = { family := 10, dstIP := "2001:db8::1", dstPort := 443 } := by
  have himage := image_members (toIPv6 8 443) linux.order
  obtain ⟨_, _, _, hdecode⟩ := decode_reported {} (toIPv6 8 443) himage
  exact ⟨_, _, himage, hdecode, rfl, by decide +kernel⟩

/-- The address of a DNS query does not follow its family. -/
theorem query_over_ipv6_shown_as_ipv4 :
    ∃ raw event, Image ((toIPv6 17 53).members linux.order) raw ∧
      ({} : Decoder).decode linux raw = .ok event ∧ event.network.family = 10 ∧
      event.network.dstIP = "32.1.13.184" ∧
      address linux (toIPv6 17 53).family (toIPv6 17 53).daddr = "2001:db8::1" :=
  ⟨_, _, image_members (toIPv6 17 53) linux.order, decode_members {} (toIPv6 17 53), rfl, rfl, rfl⟩

end ArgusEdr.Decode
