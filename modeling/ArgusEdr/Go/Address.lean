import ArgusEdr.Go.Strconv

/-!
# Addresses and address ranges (`net`, `net/netip`)

Many texts denote one address: the letters of an IPv6 address may be of either case, its groups may
have leading zeros, zeros may be left out, and an IPv4 address may be written as an IPv6 one. `parseIP`
is the 128-bit number a text denotes, `parseCIDR` a range as a network number and a mask. `Range.Covers`
is what a range is for, that the leading bits agree; `IPNet.contains` decides it (`contains_parseCIDR`).

An address with a zone is refused by both functions, so it is not read here.
-/

namespace ArgusEdr.Go

open List

/-! ## Texts of addresses -/

/-- The value of a hexadecimal digit of either case. -/
def hexVal (c : Char) : Option ℕ :=
  if '0' ≤ c ∧ c ≤ '9' then some (c.toNat - '0'.toNat)
  else if 'a' ≤ c ∧ c ≤ 'f' then some (c.toNat - 'a'.toNat + 10)
  else if 'A' ≤ c ∧ c ≤ 'F' then some (c.toNat - 'A'.toNat + 10)
  else none

/-- `parseIPv4Fields`: the four numbers of a dotted text. `fields` are those already read, `val`
is the number being read and `digLen` the number of its digits. -/
def parseIPv4Fields (fields : List ℕ) (val digLen : ℕ) : List Char → Option (List ℕ)
  | [] => if fields.length < 3 then none else some (fields ++ [val])
  | c :: s =>
    match digitVal c with
    | some d =>
      -- an octet with a leading zero
      if digLen = 1 ∧ val = 0 then none
      else if val * 10 + d > 255 then none
      else parseIPv4Fields fields (val * 10 + d) (digLen + 1) s
    | none =>
      if c = '.' then
        -- an octet without a digit: at the start, after a dot, or at the end
        if digLen = 0 ∨ s = [] then none
        else if fields.length = 3 then none
        else parseIPv4Fields (fields ++ [val]) 0 0 s
      else none

/-- The number big-endian bytes denote. -/
def ofBytes (bytes : List ℕ) : ℕ := bytes.foldl (fun n b => n * 256 + b) 0

def isHex (c : Char) : Bool := (hexVal c).isSome

/-- The loop of `parseIPv6` over the groups, of which `room` still fit: the bytes read, the place
of the ellipsis, and what is left of the text. -/
def parseIPv6Groups : (room : ℕ) → (ip : List ℕ) → (ellipsis : Option ℕ) → List Char →
    Option (List ℕ × Option ℕ × List Char)
  | 0, ip, ellipsis, s => some (ip, ellipsis, s)
  | room + 1, ip, ellipsis, s =>
    let digits := s.takeWhile isHex
    let acc := digits.foldl (fun n c => n * 16 + (hexVal c).getD 0) 0
    let ip' := ip ++ [acc / 256, acc % 256]
    if digits.length > 4 ∨ digits = [] then none
    else
      match s.dropWhile isHex with
      | [] => some (ip', ellipsis, [])
      | '.' :: _ =>
        -- an embedded IPv4 address takes the place of the last two groups
        if ellipsis = none ∧ ip.length ≠ 12 then none
        else if ip.length + 4 > 16 then none
        else (parseIPv4Fields [] 0 0 s).map fun fields => (ip ++ fields, ellipsis, [])
      | [':'] => none
      | [':', ':'] => if ellipsis.isSome then none else some (ip', some ip'.length, [])
      | ':' :: ':' :: rest =>
        if ellipsis.isSome then none else parseIPv6Groups room ip' (some ip'.length) rest
      | ':' :: rest => parseIPv6Groups room ip' ellipsis rest
      | _ => none

/-- The end of `parseIPv6`: the whole text must be used up, and an ellipsis stands for the groups
that are missing, of which there is at least one. -/
def expandEllipsis : List ℕ × Option ℕ × List Char → Option (List ℕ)
  | (ip, ellipsis, rest) =>
    if rest ≠ [] then none
    else if ip.length < 16 then
      ellipsis.map fun e => ip.take e ++ List.replicate (16 - ip.length) 0 ++ ip.drop e
    else if ellipsis.isSome then none
    else some ip

def parseIPv6 (s : List Char) : Option (List ℕ) :=
  match s with
  | [':', ':'] => some (List.replicate 16 0)
  | ':' :: ':' :: rest => (parseIPv6Groups 8 [] (some 0) rest).bind expandEllipsis
  | _ => (parseIPv6Groups 8 [] none s).bind expandEllipsis

/-- A `netip.Addr` without a zone. -/
inductive Addr where
  | v4 (bits : BitVec 32)
  | v6 (bits : BitVec 128)
deriving Repr, DecidableEq

/-- `netip.ParseAddr`, where the answer has no zone: the first dot or colon says how the text is
to be read. -/
def parseAddr (s : String) : Option Addr :=
  if '%' ∈ s.toList then none
  else
    match s.toList.find? fun c => c == '.' || c == ':' with
    | some '.' => (parseIPv4Fields [] 0 0 s.toList).map fun fields => .v4 (.ofNat 32 (ofBytes fields))
    | some _ => (parseIPv6 s.toList).map fun bytes => .v6 (.ofNat 128 (ofBytes bytes))
    | none => none

/-- The 16 bytes of an address as `net.ParseIP` returns them. -/
abbrev IP := BitVec 128

/-- The first twelve bytes of an IPv4 address in its 16-byte form. -/
def v4InV6Prefix : BitVec 96 := 0xffff#96

def Addr.as16 : Addr → IP
  | .v4 bits => v4InV6Prefix ++ bits
  | .v6 bits => bits

def Addr.bitLen : Addr → ℕ
  | .v4 _ => 32
  | .v6 _ => 128

def parseIP (s : String) : Option IP := (parseAddr s).map Addr.as16

/-- `To4`: the four bytes of an IPv4 address. -/
def to4 (ip : IP) : Option (BitVec 32) :=
  if ip.extractLsb' 32 96 = v4InV6Prefix then some (ip.extractLsb' 0 32) else none

/-! ## Ranges -/

/-- `IPNet`: the network number and the mask, of 4 or of 16 bytes. -/
inductive IPNet where
  | v4 (ip mask : BitVec 32)
  | v6 (ip mask : BitVec 128)
deriving Repr, DecidableEq

/-- `CIDRMask`: the leading `ones` of `w` bits. -/
def cidrMask (ones w : ℕ) : BitVec w := BitVec.allOnes w <<< (w - ones)

/-- `dtoi`: a text of digits only, whose value stays below a bound; `n` is the value so far. -/
def dtoi (n : ℕ) : List Char → Option ℕ
  | [] => some n
  | c :: s =>
    match digitVal c with
    | none => none
    | some d => if n * 10 + d ≥ 0xFFFFFF then none else dtoi (n * 10 + d) s

/-- A range as a text denotes it: an address and the number of its leading bits that count. -/
def splitCIDR (s : String) : Option (Addr × ℕ) := do
  let addr ← parseAddr (String.ofList (s.toList.takeWhile (· ≠ '/')))
  match s.toList.dropWhile (· ≠ '/') with
  | '/' :: c :: mask =>
    let n ← dtoi 0 (c :: mask)
    if n > addr.bitLen then none else some (addr, n)
  | _ => none

/-- The network a text denotes: the address, masked, with the mask of its length. -/
def network : Addr → ℕ → IPNet
  | .v4 ip, n => .v4 (ip &&& cidrMask n 32) (cidrMask n 32)
  | .v6 ip, n => .v6 (ip &&& cidrMask n 128) (cidrMask n 128)

/-- `net.ParseCIDR`, without the address it returns beside the network. -/
def parseCIDR (s : String) : Option IPNet := (splitCIDR s).map fun (addr, n) => network addr n

/-- `networkNumberAndMask`: a network of IPv4 addresses is tested as one, however it is held. -/
def networkNumberAndMask : IPNet → IPNet
  | .v4 ip mask => .v4 ip mask
  | .v6 ip mask =>
    match to4 ip with
    | some ip => .v4 ip (mask.extractLsb' 0 32)
    | none => .v6 ip mask

/-- `IPNet.Contains`: the address and the network are of one length and agree under the mask. -/
def IPNet.contains (n : IPNet) (ip : IP) : Bool :=
  match networkNumberAndMask n, to4 ip with
  | .v4 nn m, some x => nn &&& m == x &&& m
  | .v6 nn m, none => nn &&& m == ip &&& m
  | _, _ => false

/-! ## What a range covers -/

/-- The first `n` bits of `a` and `b` are the same. -/
def AgreeOn {w : ℕ} (n : ℕ) (a b : BitVec w) : Prop := ∀ i < n, a.getMsbD i = b.getMsbD i

/-- The addresses that the range `addr/n` stands for. An IPv4 address is in an IPv6 range only if
the range is one of IPv4 addresses, which takes 96 bits. -/
def Covers (ip : IP) : Addr × ℕ → Prop
  | (.v4 bits, n) => ∃ x, to4 ip = some x ∧ AgreeOn n bits x
  | (.v6 bits, n) => AgreeOn n bits ip ∧ ((to4 ip).isSome → 96 ≤ n)

variable {n val : ℕ} {a ip : IP} {s : String} {addr : Addr} {cur : List Char}

theorem getMsbD_cidrMask {w : ℕ} (h : n ≤ w) (i : ℕ) :
    (cidrMask n w).getMsbD i = decide (i < n) := by
  rw [cidrMask, BitVec.getMsbD_shiftLeft, BitVec.getMsbD_allOnes, decide_eq_decide]
  omega

theorem and_cidrMask_eq_iff {w : ℕ} (h : n ≤ w) (a b : BitVec w) :
    a &&& cidrMask n w = b &&& cidrMask n w ↔ AgreeOn n a b := by
  constructor
  · intro heq i hi
    have hbit := congrArg (fun v => v.getMsbD i) heq
    simpa [getMsbD_cidrMask h, hi] using hbit
  · intro hagree
    refine BitVec.eq_of_getMsbD_eq fun i _ => ?_
    simp only [BitVec.getMsbD_and, getMsbD_cidrMask h]
    by_cases hi : i < n
    · rw [hagree i hi]
    · simp [hi]

theorem to4_eq_some_iff (ip : IP) (x : BitVec 32) :
    to4 ip = some x ↔ ip.extractLsb' 32 96 = v4InV6Prefix ∧ ip.extractLsb' 0 32 = x := by
  simp [to4]

theorem to4_eq_none_iff (ip : IP) : to4 ip = none ↔ ip.extractLsb' 32 96 ≠ v4InV6Prefix := by
  simp [to4]

theorem to4_as16 (bits : BitVec 32) : to4 (Addr.v4 bits).as16 = some bits := by
  rw [to4_eq_some_iff]
  exact ⟨BitVec.extractLsb'_append_eq_left, BitVec.extractLsb'_append_eq_right⟩

theorem extract_eq_of_agreeOn {b : IP} (hn : 96 ≤ n) (h : AgreeOn n a b) :
    a.extractLsb' 32 96 = b.extractLsb' 32 96 := by
  refine BitVec.eq_of_getLsbD_eq fun i hi => ?_
  have hbit := h (95 - i) (by omega)
  rw [BitVec.getMsbD_eq_getLsbD, BitVec.getMsbD_eq_getLsbD] at hbit
  have hpos : 128 - 1 - (95 - i) = 32 + i := by omega
  simpa [BitVec.getLsbD_extractLsb', hpos, hi, show 95 - i < 128 by omega] using hbit

theorem le_of_to4_and_cidrMask (hn : n ≤ 128) {x : BitVec 32}
    (h : to4 (a &&& cidrMask n 128) = some x) : 96 ≤ n := by
  have hbit := congrArg (fun v => v.getLsbD 0) ((to4_eq_some_iff _ _).mp h).1
  have hone : (cidrMask n 128).getMsbD 95 = true := by
    rw [BitVec.getMsbD_eq_getLsbD]
    simp only [BitVec.getLsbD_extractLsb', BitVec.getLsbD_and] at hbit
    simp_all [v4InV6Prefix]
  rw [getMsbD_cidrMask hn] at hone
  have := of_decide_eq_true hone
  omega

theorem eq_iff_extract {b : IP} (h : a.extractLsb' 32 96 = b.extractLsb' 32 96) :
    a = b ↔ a.extractLsb' 0 32 = b.extractLsb' 0 32 := by
  constructor
  · rintro rfl
    rfl
  · intro hlow
    refine BitVec.eq_of_getLsbD_eq fun i hi => ?_
    by_cases hi32 : i < 32
    · have hbit := congrArg (fun v => v.getLsbD i) hlow
      simpa [BitVec.getLsbD_extractLsb', hi32] using hbit
    · have hbit := congrArg (fun v => v.getLsbD (i - 32)) h
      have hpos : 32 + (i - 32) = i := by omega
      simpa [BitVec.getLsbD_extractLsb', hpos, show i - 32 < 96 by omega] using hbit

theorem contains_network_v6 (bits : BitVec 128) (hn : n ≤ 128) (ip : IP) :
    (network (.v6 bits) n).contains ip = true ↔ Covers ip (.v6 bits, n) := by
  simp only [network, IPNet.contains, networkNumberAndMask, Covers]
  -- the address and its network number agree with the same addresses
  have hagree : AgreeOn n (bits &&& cidrMask n 128) ip ↔ AgreeOn n bits ip := by
    rw [← and_cidrMask_eq_iff hn, ← and_cidrMask_eq_iff hn, BitVec.and_assoc, BitVec.and_self]
  rw [← hagree]
  generalize hnn : bits &&& cidrMask n 128 = nn
  cases hnet : to4 nn with
  | none =>
    cases hip : to4 ip with
    | none => simp [and_cidrMask_eq_iff hn]
    | some =>
      rw [to4_eq_none_iff] at hnet
      rw [to4_eq_some_iff] at hip
      simp only [Option.isSome_some, forall_const, Bool.false_eq_true, false_iff, not_and]
      intro h h96
      exact hnet ((extract_eq_of_agreeOn h96 h).trans hip.1)
  | some =>
    have h96 : 96 ≤ n := le_of_to4_and_cidrMask hn (hnn ▸ hnet)
    rw [to4_eq_some_iff] at hnet
    cases hip : to4 ip with
    | none =>
      rw [to4_eq_none_iff] at hip
      simp only [Bool.false_eq_true, false_iff, not_and]
      intro h
      exact absurd ((extract_eq_of_agreeOn h96 h).symm.trans hnet.1) hip
    | some =>
      rw [to4_eq_some_iff] at hip
      have htop : (nn &&& cidrMask n 128).extractLsb' 32 96 =
          (ip &&& cidrMask n 128).extractLsb' 32 96 := by
        rw [BitVec.extractLsb'_and, BitVec.extractLsb'_and, hnet.1, hip.1]
      rw [← and_cidrMask_eq_iff hn, eq_iff_extract htop, BitVec.extractLsb'_and,
        BitVec.extractLsb'_and, hnet.2, hip.2]
      simp [h96]

theorem contains_network_v4 (bits : BitVec 32) (hn : n ≤ 32) (ip : IP) :
    (network (.v4 bits) n).contains ip = true ↔ Covers ip (.v4 bits, n) := by
  simp only [network, IPNet.contains, networkNumberAndMask, Covers]
  cases hip : to4 ip with
  | none => simp
  | some =>
    have hmask : (bits &&& cidrMask n 32) &&& cidrMask n 32 = bits &&& cidrMask n 32 := by
      rw [BitVec.and_assoc, BitVec.and_self]
    simp [hmask, and_cidrMask_eq_iff hn]

theorem le_bitLen_of_splitCIDR (h : splitCIDR s = some (addr, n)) : n ≤ addr.bitLen := by
  unfold splitCIDR at h
  simp only [Option.bind_eq_bind, Option.bind_eq_some_iff] at h
  obtain ⟨a, -, h⟩ := h
  split at h
  · simp only [Option.bind_eq_some_iff] at h
    obtain ⟨m, -, h⟩ := h
    split at h
    · cases h
    · next hle =>
      cases h
      omega
  · cases h

theorem contains_network (hn : n ≤ addr.bitLen) (ip : IP) :
    (network addr n).contains ip = true ↔ Covers ip (addr, n) := by
  cases addr with
  | v4 bits => exact contains_network_v4 bits hn ip
  | v6 bits => exact contains_network_v6 bits hn ip

/-- `IPNet.Contains` of the network a text denotes decides whether the range covers the
address. -/
theorem contains_parseCIDR (s : String) (ip : IP) :
    (∃ network, parseCIDR s = some network ∧ network.contains ip = true) ↔
      ∃ range, splitCIDR s = some range ∧ Covers ip range := by
  cases hsplit : splitCIDR s with
  | none => simp [parseCIDR, hsplit]
  | some =>
    have hn := le_bitLen_of_splitCIDR hsplit
    simp [parseCIDR, hsplit, contains_network hn]

example : (parseCIDR "::ffff:10.0.0.0/104").map (·.contains (Addr.v4 0x0A020304#32).as16) =
    some true := by
  decide +kernel

/-! ## Dotted texts -/

/-- The one dotted text of some numbers. -/
def dotted (fields : List ℕ) : List Char := ['.'].intercalate (fields.map (Nat.toDigits 10))

theorem dotted_cons_cons (m n : ℕ) (fields : List ℕ) :
    dotted (m :: n :: fields) = Nat.toDigits 10 m ++ '.' :: dotted (n :: fields) := by
  simp [dotted, List.intercalate]

theorem digitVal_eq_some {c : Char} {d : ℕ} (h : digitVal c = some d) :
    d < 10 ∧ Nat.toDigits 10 d = [c] := by
  unfold digitVal at h
  split at h
  · next hc =>
    cases h
    have hlow : 48 ≤ c.toNat := hc.1
    have hhigh : c.toNat ≤ 57 := hc.2
    have hlt : c.toNat - '0'.toNat < 10 := by
      show c.toNat - 48 < 10
      omega
    refine ⟨hlt, ?_⟩
    rw [Nat.toDigits_of_lt_base hlt]
    obtain ⟨n, hn⟩ : ∃ n, c.toNat = 48 + n := ⟨c.toNat - 48, by omega⟩
    have hchar : c = Char.ofNat (48 + n) := by rw [← hn, Char.ofNat_toNat]
    have hn10 : n < 10 := by omega
    subst hchar
    interval_cases n <;> rfl
  · cases h

theorem toDigits_concat {c : Char} {d : ℕ} (hc : digitVal c = some d)
    (hcur : cur = if cur.length = 0 then [] else Nat.toDigits 10 val)
    (hzero : cur.length = 0 → val = 0) (hlead : ¬ (cur.length = 1 ∧ val = 0)) :
    cur ++ [c] = Nat.toDigits 10 (val * 10 + d) := by
  obtain ⟨hd, hdigit⟩ := digitVal_eq_some hc
  by_cases hempty : cur.length = 0
  · rw [length_eq_zero_iff.mp hempty, hzero hempty, Nat.zero_mul, Nat.zero_add, hdigit,
      nil_append]
  · rw [if_neg hempty] at hcur
    have hpos : 0 < val := by
      refine Nat.pos_of_ne_zero fun h0 => hlead ⟨?_, h0⟩
      rw [hcur, h0]
      rfl
    rw [hcur, ← hdigit, Nat.toDigits_append_toDigits (by norm_num) hpos hd, Nat.mul_comm]

/-- The text that `parseIPv4Fields` accepts is the dotted text of the numbers it returns; `cur`
are the digits of the number being read. -/
theorem parseIPv4Fields_eq_some {fields out : List ℕ} {s : List Char}
    (h : parseIPv4Fields fields val cur.length s = some out)
    (hcur : cur = if cur.length = 0 then [] else Nat.toDigits 10 val)
    (hzero : cur.length = 0 → val = 0) (hval : val ≤ 255) (hlen : fields.length ≤ 3)
    (hne : cur ≠ [] ∨ s ≠ []) :
    ∃ rest, out = fields ++ rest ∧ out.length = 4 ∧ (∀ n ∈ rest, n ≤ 255) ∧
      cur ++ s = dotted rest := by
  induction s generalizing fields val cur with
  | nil =>
    simp only [parseIPv4Fields] at h
    split at h
    · cases h
    · cases h
      have hcur0 : cur.length ≠ 0 := by simpa using hne
      rw [if_neg hcur0] at hcur
      refine ⟨[val], rfl, by simp; omega, by simpa using hval, ?_⟩
      rw [hcur]
      simp [dotted]
  | cons c s ih =>
    simp only [parseIPv4Fields] at h
    cases hc : digitVal c with
    | some =>
      simp only [hc] at h
      split_ifs at h with hlead hbig
      have hnext := toDigits_concat hc hcur hzero hlead
      have hlen' : (cur ++ [c]).length = cur.length + 1 := by simp
      rw [← hlen'] at h
      obtain ⟨rest, hout, h4, hle, htext⟩ := ih h (by simpa using hnext) (by simp) (by omega) hlen
        (Or.inl (by simp))
      exact ⟨rest, hout, h4, hle, by simpa using htext⟩
    | none =>
      simp only [hc] at h
      split_ifs at h with hdot hno hfull
      rw [not_or] at hno
      change parseIPv4Fields _ 0 ([] : List Char).length s = _ at h
      obtain ⟨rest, hout, h4, hle, htext⟩ := ih h (by simp) (by simp) (by omega)
        (by simp; omega) (Or.inr hno.2)
      rw [if_neg hno.1] at hcur
      have hrest : rest ≠ [] := by
        rintro rfl
        exact hno.2 (by simpa [dotted] using htext)
      refine ⟨val :: rest, by simp [hout], h4, by simpa [hval] using hle, ?_⟩
      obtain ⟨n, rest, rfl⟩ := exists_cons_of_ne_nil hrest
      rw [hdot, dotted_cons_cons, ← htext, ← hcur, nil_append]

theorem ofBytes_injective {xs ys : List ℕ} (hx : xs.length = 4) (hy : ys.length = 4)
    (hxs : ∀ n ∈ xs, n ≤ 255) (hys : ∀ n ∈ ys, n ≤ 255)
    (h : BitVec.ofNat 32 (ofBytes xs) = BitVec.ofNat 32 (ofBytes ys)) : xs = ys := by
  obtain ⟨a, b, c, d, rfl⟩ := length_eq_four.mp hx
  obtain ⟨a', b', c', d', rfl⟩ := length_eq_four.mp hy
  have hmod := congrArg BitVec.toNat h
  simp only [ofBytes, foldl_cons, foldl_nil, BitVec.toNat_ofNat] at hmod
  simp only [forall_mem_cons] at hxs hys
  simp only [List.cons.injEq, and_true]
  omega

theorem exists_dotted_of_parseIP (hs : ':' ∉ s.toList) (h : parseIP s = some ip) :
    ∃ fields, fields.length = 4 ∧ (∀ n ∈ fields, n ≤ 255) ∧ s.toList = dotted fields ∧
      ip = (Addr.v4 (.ofNat 32 (ofBytes fields))).as16 := by
  simp only [parseIP, Option.map_eq_some_iff] at h
  obtain ⟨addr, haddr, rfl⟩ := h
  unfold parseAddr at haddr
  split at haddr
  · cases haddr
  · split at haddr
    · next hfind =>
      simp only [Option.map_eq_some_iff] at haddr
      obtain ⟨fields, hfields, rfl⟩ := haddr
      have hne : s.toList ≠ [] := ne_nil_of_mem (mem_of_find?_eq_some hfind)
      change parseIPv4Fields _ 0 ([] : List Char).length _ = _ at hfields
      obtain ⟨rest, hout, h4, hle, htext⟩ := parseIPv4Fields_eq_some hfields (by simp)
        (by simp) (by omega) (by simp) (Or.inr hne)
      rw [nil_append] at hout htext
      subst hout
      exact ⟨fields, h4, hle, htext, rfl⟩
    · next c hdot hfind =>
      -- the first dot or colon is no dot, so it is a colon of the text
      have hc := find?_some hfind
      simp only [Bool.or_eq_true, beq_iff_eq] at hc
      have hcolon : c = ':' := hc.resolve_left hdot
      exact absurd (hcolon ▸ mem_of_find?_eq_some hfind) hs
    · cases haddr

theorem parseIP_injective_of_dotted {t : String} (hs : ':' ∉ s.toList) (ht : ':' ∉ t.toList)
    (hsip : parseIP s = some ip) (htip : parseIP t = some ip) : s = t := by
  obtain ⟨xs, hxlen, hxle, hxtext, hx⟩ := exists_dotted_of_parseIP hs hsip
  obtain ⟨ys, hylen, hyle, hytext, hy⟩ := exists_dotted_of_parseIP ht htip
  have hbits : some (BitVec.ofNat 32 (ofBytes xs)) = some (BitVec.ofNat 32 (ofBytes ys)) := by
    rw [← to4_as16, ← to4_as16, ← hx, ← hy]
  have hxy := ofBytes_injective hxlen hylen hxle hyle (Option.some.inj hbits)
  rw [← String.toList_inj, hxtext, hytext, hxy]

end ArgusEdr.Go
