import ArgusEdr.Go.Strings
import ArgusEdr.Lib.CString
import ArgusEdr.Sensor.Programs

/-!
# Who may open the shadow files

A credential file is recognised by its name and that of its directory, read into buffers of 8 and 4
bytes. `gshadow` and `etc` fill theirs, so longer names that start with them are taken for them
(`credFile_accepted_iff`). Exempt are the processes whose names userspace has put into a map with 64
places. The configuration may list more: `readers_allowed_iff`.
-/

namespace ArgusEdr.Sensor

open Go (Bytes ascii utf8)
open List hiding beq_eq_decide
open Lsm (Object readStr isShadowBasename fileOpenGuard isAllowedReader commKey eperm)

/-! ## The names of the files -/

theorem readStr_eq_bounded (n : ℕ) (s : Bytes) : readStr n s = CString.bounded n s := by
  have htext : (s.takeWhile (· != 0)) = CString.text s := by
    rw [CString.text]
    congr 1
    funext b
    simp [bne, beq_eq_decide]
  rw [readStr, htext]
  rfl

/-- The test both programs make of a name and its directory. -/
def isCredFile (name parent : Bytes) : Bool :=
  isShadowBasename (readStr 8 name) && readStr 4 parent == ascii "etc" ++ [0]

theorem isShadowBasename_iff (name : Bytes) :
    isShadowBasename (readStr 8 name) = true ↔
      CString.text name = ascii "shadow" ∨ ascii "gshadow" <+: CString.text name := by
  have hzero : 0 ∉ (CString.text name).take 7 := fun h =>
    CString.notMem_text name (mem_of_mem_take h)
  have hshadow := CString.take_pad_eq_iff (n := 8) (t := ascii "shadow") (by decide) hzero (by decide)
  have hgshadow := CString.take_pad_eq_iff (n := 8) (t := ascii "gshadow") (by decide) hzero
    (by decide)
  rw [isShadowBasename, readStr_eq_bounded, Bool.or_eq_true, beq_iff_eq, beq_iff_eq]
  refine or_congr (hshadow.trans ?_) (hgshadow.trans ?_)
  · exact CString.take_eq_iff_of_lt (by decide)
  · exact CString.take_eq_iff_of_eq (by decide)

theorem readStr_etc_iff (parent : Bytes) :
    readStr 4 parent = ascii "etc" ++ [0] ↔ ascii "etc" <+: CString.text parent := by
  rw [readStr_eq_bounded]
  exact CString.bounded_eq_pad_iff_of_eq (by decide) (by decide)

theorem isCredFile_iff {name parent : Bytes} (hname : 0 ∉ name) (hparent : 0 ∉ parent) :
    isCredFile name parent = true ↔
      (name = ascii "shadow" ∨ ascii "gshadow" <+: name) ∧ ascii "etc" <+: parent := by
  rw [isCredFile, Bool.and_eq_true, beq_iff_eq, isShadowBasename_iff, readStr_etc_iff,
    CString.text_of_notMem hname, CString.text_of_notMem hparent]

theorem isSome_handleFileOpen (m : Moment) (current : Task) (name parent : Bytes) :
    (handleFileOpen m current name parent).isSome = isCredFile name parent := by
  rw [handleFileOpen, isCredFile]
  by_cases hname : isShadowBasename (readStr 8 name) = true
  · by_cases hparent : readStr 4 parent = ascii "etc" ++ [0]
    all_goals simp [hname, hparent]
  · simp [hname]

theorem fileOpenGuard_eq {o : Object} (hmode : o.currentMode ≠ Lsm.modeOff) {comm : Bytes}
    (hreader : isAllowedReader o comm = false) (name parent : Bytes) (room : Bool) :
    ((fileOpenGuard o name parent comm true 0).2.isSome = isCredFile name parent) ∧
      (fileOpenGuard o name parent comm room 0).1 =
        if isCredFile name parent ∧ o.currentMode = Lsm.modeEnforce then eperm else 0 := by
  simp only [fileOpenGuard, isCredFile, hreader]
  by_cases hname : isShadowBasename (readStr 8 name) = true
  · by_cases hparent : readStr 4 parent = ascii "etc" ++ [0]
    · simp [hmode, hname, hparent, Lsm.hit]
    · simp [hmode, hname, hparent]
  · simp [hmode, hname]

def enforcing : Object where
  enforceConfig := Lsm.modeEnforce
  attached := Lsm.lsmPrograms

section
variable {env : Lsm.LoadEnv}

/-- What the map holds once the keys `seen` have been put into it: as many different ones as it has
room for. -/
structure Filled (keys seen : List Bytes) : Prop where
  nodup : keys.Nodup
  subset : keys ⊆ seen
  length_le : keys.length ≤ Lsm.credReadersMax
  complete : keys.length < Lsm.credReadersMax → seen ⊆ keys

theorem filled_put (hput : ∀ comm, Lsm.succeeded (env.putReader comm) = true)
    {keys seen : List Bytes} (h : Filled keys seen) (comm : String) :
    Filled (Lsm.putCredReader env keys comm) (seen ++ [commKey comm]) := by
  rw [Lsm.putCredReader, if_neg (by simp [hput comm])]
  by_cases hmem : commKey comm ∈ keys
  · rw [if_pos hmem]
    refine ⟨h.nodup, fun k hk => mem_append_left _ (h.subset hk), h.length_le, fun hlt => ?_⟩
    exact append_subset.mpr ⟨h.complete hlt, by simpa using hmem⟩
  · rw [if_neg hmem]
    by_cases hroom : keys.length < Lsm.credReadersMax
    · rw [if_pos hroom]
      refine ⟨h.nodup.append (nodup_singleton _) (by simpa using hmem), ?_, ?_, fun _ => ?_⟩
      · exact append_subset.mpr
          ⟨fun k hk => mem_append_left _ (h.subset hk), subset_append_right _ _⟩
      · rw [length_append]
        exact hroom
      · exact append_subset.mpr
          ⟨fun k hk => mem_append_left _ (h.complete hroom hk), subset_append_right _ _⟩
    · rw [if_neg hroom]
      exact ⟨h.nodup, fun k hk => mem_append_left _ (h.subset hk), h.length_le,
        fun hlt => absurd hlt hroom⟩

theorem filled_load (hmap : env.hasCredReaders = true)
    (hput : ∀ comm, Lsm.succeeded (env.putReader comm) = true) (comms : List String) :
    Filled (Lsm.loadCredReaderAllowlist env comms) (comms.map commKey) := by
  rw [Lsm.loadCredReaderAllowlist, if_pos hmap]
  induction comms using List.reverseRecOn with
  | nil => exact ⟨nodup_nil, nil_subset _, Nat.zero_le _, fun _ => nil_subset _⟩
  | append_singleton comms comm ih =>
    rw [foldl_append, map_append]
    exact filled_put hput ih comm

theorem Filled.subset_iff {keys seen : List Bytes} (h : Filled keys seen) :
    seen ⊆ keys ↔ seen.toFinset.card ≤ Lsm.credReadersMax := by
  have hcard : keys.toFinset.card = keys.length := toFinset_card_of_nodup h.nodup
  have hsub : keys.toFinset ⊆ seen.toFinset := fun k hk =>
    mem_toFinset.mpr (h.subset (mem_toFinset.mp hk))
  constructor
  · intro hall
    have hle : seen.toFinset.card ≤ keys.toFinset.card := Finset.card_le_card fun k hk =>
      mem_toFinset.mpr (hall (mem_toFinset.mp hk))
    have hlen := h.length_le
    omega
  · intro hle
    by_cases hroom : keys.length < Lsm.credReadersMax
    · exact h.complete hroom
    · have heq : keys.toFinset = seen.toFinset :=
        Finset.eq_of_subset_of_card_le hsub (by omega)
      intro k hk
      rwa [← mem_toFinset, heq, mem_toFinset]

end

/-- The key of a name without zeros that leaves room for one is what the kernel reads of it. -/
theorem commKey_eq {comm : String} (hlen : comm.utf8ByteSize ≤ Config.maxCommLen)
    (hzero : 0 ∉ utf8 comm) :
    commKey comm = CString.pad 16 (utf8 comm) ∧
      readStr Lsm.taskCommLen (utf8 comm) = CString.pad 16 (utf8 comm) := by
  have hlength : (utf8 comm).length ≤ 15 := hlen
  constructor
  · rw [commKey, Lsm.taskCommLen]
    show CString.pad 16 ((utf8 comm).take 16) = _
    rw [take_of_length_le (by omega)]
  · rw [readStr_eq_bounded, Lsm.taskCommLen, CString.bounded_eq_pad_iff hzero,
      CString.text_of_notMem hzero]
    exact take_of_length_le hlength

theorem forM_ok {α : Type*} {check : α → Except Go.Error Unit} {l : List α}
    (h : l.forM check = .ok ()) : ∀ a ∈ l, check a = .ok () := by
  induction l with
  | nil => simp
  | cons a l ih =>
    have hcons : (check a >>= fun _ => l.forM check) = .ok () := h
    rw [Config.bind_ok_iff] at hcons
    exact forall_mem_cons.mpr ⟨hcons.1, ih hcons.2⟩

theorem comm_length_of_validate {c : Config} (h : Config.validate c = .ok ()) :
    ∀ comm ∈ c.response.credReaderAllowlist, comm.utf8ByteSize ≤ Config.maxCommLen := by
  simp only [Config.validate, Config.bind_ok_iff] at h
  intro comm hcomm
  have hcheck := forM_ok h.2.2.2.2.2.1 comm hcomm
  simp only [Config.bind_ok_iff, Config.require_ok_iff, decide_eq_true_eq] at hcheck
  exact hcheck.2

/-- Of the names a valid configuration lists, all are exempt exactly if the map has room for them. -/
theorem readers_allowed_iff {c : Config} (hvalid : Config.validate c = .ok ()) {env : Lsm.LoadEnv}
    (hmap : env.hasCredReaders = true)
    (hput : ∀ comm, Lsm.succeeded (env.putReader comm) = true)
    (hzero : ∀ comm ∈ c.response.credReaderAllowlist, 0 ∉ utf8 comm) {o : Object}
    (ho : o.credReaders = Lsm.loadCredReaderAllowlist env c.response.credReaderAllowlist) :
    (∀ comm ∈ c.response.credReaderAllowlist, isAllowedReader o (utf8 comm) = true) ↔
      c.response.credReaderAllowlist.toFinset.card ≤ Lsm.credReadersMax := by
  have hkey : ∀ comm ∈ c.response.credReaderAllowlist,
      commKey comm = CString.pad 16 (utf8 comm) ∧
        readStr Lsm.taskCommLen (utf8 comm) = CString.pad 16 (utf8 comm) :=
    fun comm hcomm => commKey_eq (comm_length_of_validate hvalid comm hcomm) (hzero comm hcomm)
  -- different names have different keys
  have hinj : Set.InjOn commKey (c.response.credReaderAllowlist.toFinset : Set String) := by
    intro comm hcomm comm' hcomm' heq
    have hmem := mem_toFinset.mp (Finset.mem_coe.mp hcomm)
    have hmem' := mem_toFinset.mp (Finset.mem_coe.mp hcomm')
    rw [(hkey comm hmem).1, (hkey comm' hmem').1] at heq
    have htext := congrArg CString.text heq
    rw [CString.text_pad (hzero comm hmem), CString.text_pad (hzero comm' hmem')] at htext
    exact Go.utf8_injective htext
  have hcard : (c.response.credReaderAllowlist.map commKey).toFinset.card =
      c.response.credReaderAllowlist.toFinset.card := by
    have himage : (c.response.credReaderAllowlist.map commKey).toFinset =
        c.response.credReaderAllowlist.toFinset.image commKey := by
      ext key
      simp
    rw [himage, Finset.card_image_of_injOn hinj]
  rw [← hcard, ← (filled_load hmap hput c.response.credReaderAllowlist).subset_iff]
  constructor
  · intro hall key hmem
    obtain ⟨comm, hcomm, rfl⟩ := mem_map.mp hmem
    have hallowed := of_decide_eq_true (hall comm hcomm)
    rwa [(hkey comm hcomm).2, ← (hkey comm hcomm).1, ho] at hallowed
  · intro hsub comm hcomm
    rw [isAllowedReader, decide_eq_true_eq, (hkey comm hcomm).2, ← (hkey comm hcomm).1, ho]
    exact hsub (mem_map_of_mem hcomm)

def withReaders (n : ℕ) : Config :=
  let base := Config.fillMaxMode Config.defaults
  { base with
    response :=
      { base.response with
        credReaderAllowlist := (List.range n).map fun i => "reader-" ++ Go.formatUint i } }

def loadedFor (n : ℕ) : Object where
  enforceConfig := Lsm.modeEnforce
  credReaders := Lsm.loadCredReaderAllowlist (.obliging 700)
    (withReaders n).response.credReaderAllowlist
  attached := Lsm.lsmPrograms

theorem readers_allowed_two :
    isAllowedReader (loadedFor 2) (utf8 "reader-0") = true ∧
      isAllowedReader (loadedFor 2) (utf8 "reader-1") = true := by
  have hmap : (Lsm.LoadEnv.obliging 700).hasCredReaders = true := rfl
  have hvalid : Config.validate (withReaders 2) = .ok () := by decide
  have hallowed : ∀ comm ∈ (withReaders 2).response.credReaderAllowlist,
      isAllowedReader (loadedFor 2) (utf8 comm) = true :=
    (readers_allowed_iff hvalid hmap (fun _ => rfl) (by decide) rfl).mpr (by decide)
  exact ⟨hallowed "reader-0" (by decide), hallowed "reader-1" (by decide)⟩

/-- With 65 readers the configuration is valid, and the last one is denied the shadow file. -/
theorem last_reader_denied :
    Config.validate (withReaders 65) = .ok () ∧
      "reader-64" ∈ (withReaders 65).response.credReaderAllowlist ∧
      isAllowedReader (loadedFor 65) (utf8 "reader-64") = false ∧
      (fileOpenGuard (loadedFor 65) (ascii "shadow") (ascii "etc") (utf8 "reader-64") true 0).1 =
        eperm := by
  decide +kernel

end ArgusEdr.Sensor
