import ArgusEdr.Agent.Signals
import ArgusEdr.Go.Strings
import ArgusEdr.Lib.Strip

/-!
# The name of a process before it is signalled (`internal/respond`)

`signalGuarded` compares the name an alert observed with the contents of `/proc/<pid>/comm`, trimmed.
A name is any bytes without a NUL, in no particular encoding, so this file has the comparison over
bytes (`sameName`); for texts it is the one of `signalGuarded` (`recognised_eq_sameName`).

The trimming is meant for the newline behind the name, but takes white space off the name as well.
The guard is exact for the names that neither start nor end with white space, and for no others
(`guard_exact_iff`).
-/

namespace ArgusEdr

open List
namespace Go

/-! ## Trimming bytes -/

/-- The code points of `unicode.IsSpace`. -/
def spaceCodes : List ℕ :=
  [0x09, 0x0A, 0x0B, 0x0C, 0x0D, 0x20, 0x85, 0xA0, 0x1680, 0x2000, 0x2001, 0x2002, 0x2003, 0x2004,
    0x2005, 0x2006, 0x2007, 0x2008, 0x2009, 0x200A, 0x2028, 0x2029, 0x202F, 0x205F, 0x3000]

def spaceChars : List Char := spaceCodes.map Char.ofNat

theorem isSpace_iff_mem (c : Char) : isSpace c = true ↔ c ∈ spaceChars := by
  constructor
  · intro h
    rw [isSpace, Bool.or_eq_true, Bool.and_eq_true, decide_eq_true_eq, decide_eq_true_eq,
      decide_eq_true_eq] at h
    rw [← Char.ofNat_toNat c]
    apply mem_map_of_mem
    rcases h with hlist | ⟨hge, hle⟩
    · exact (by decide : [0x09, 0x0A, 0x0B, 0x0C, 0x0D, 0x20, 0x85, 0xA0, 0x1680, 0x2028, 0x2029,
        0x202F, 0x205F, 0x3000] ⊆ spaceCodes) hlist
    · have hrange : ∀ n, 0x2000 ≤ n → n ≤ 0x200A → n ∈ spaceCodes := by
        intro n hge hle
        interval_cases n <;> decide
      exact hrange c.toNat hge hle
  · have hall : ∀ c ∈ spaceChars, isSpace c = true := by
      simp [spaceChars, spaceCodes, isSpace]
    exact hall c

/-- White space as it stands in a text. -/
def spaces : List Bytes := spaceChars.map String.utf8EncodeChar

/-- `strings.TrimSpace` of any bytes. It decodes characters at both ends; bytes that are no encoding
of a character are not white space. -/
def trimSpaceBytes (b : Bytes) : Bytes := Strip.stripEnd spaces (Strip.strip spaces b)

section
variable {s c : Char} {rest : Bytes}

theorem eq_of_prefix_encode (h : String.utf8EncodeChar s <+: String.utf8EncodeChar c ++ rest) :
    s = c := by
  obtain ⟨t, ht⟩ := h
  have hs := ByteArray.utf8DecodeChar?_utf8EncodeChar_append (b := t.toByteArray) (c := s)
  rw [← toByteArray_append, ht, toByteArray_append,
    ByteArray.utf8DecodeChar?_utf8EncodeChar_append] at hs
  exact (Option.some.inj hs).symm

/-- Only the first byte of an encoding can start another one. -/
theorem eq_of_encode_suffix_encode (h : String.utf8EncodeChar s <:+ String.utf8EncodeChar c) :
    s = c := by
  obtain ⟨pre, hpre⟩ := h
  have hpos : 0 < (String.utf8EncodeChar s).length :=
    length_pos_iff.mpr String.utf8EncodeChar_ne_nil
  have hlt : pre.length < (String.utf8EncodeChar c).length := by
    rw [← hpre, length_append]
    omega
  have hget : (String.utf8EncodeChar c)[pre.length] = (String.utf8EncodeChar s)[0] := by
    rw [getElem_of_eq hpre.symm hlt, getElem_append_right le_rfl]
    simp
  have hfirst : (String.utf8EncodeChar c)[pre.length].IsUTF8FirstByte := by
    rw [hget]
    exact UInt8.isUTF8FirstByte_getElem_utf8EncodeChar.mpr rfl
  have hnil : pre = [] :=
    length_eq_zero_iff.mp (UInt8.isUTF8FirstByte_getElem_utf8EncodeChar.mp hfirst)
  have hwhole : String.utf8EncodeChar s <+: String.utf8EncodeChar c ++ [] := by
    rw [← hpre, hnil, nil_append, append_nil]
  exact eq_of_prefix_encode hwhole

theorem eq_of_suffix_encode (h : String.utf8EncodeChar s <:+ rest ++ String.utf8EncodeChar c) :
    s = c := by
  rcases suffix_or_suffix_of_suffix h (suffix_append rest (String.utf8EncodeChar c)) with
    hs | hc
  · exact eq_of_encode_suffix_encode hs
  · exact (eq_of_encode_suffix_encode hc).symm

end

theorem nil_notMem_spaces : [] ∉ spaces := by
  intro h
  obtain ⟨c, -, hc⟩ := mem_map.mp h
  exact String.utf8EncodeChar_ne_nil hc

theorem encode_mem_spaces (c : Char) (h : isSpace c = true) : String.utf8EncodeChar c ∈ spaces :=
  mem_map_of_mem ((isSpace_iff_mem c).mp h)

/-- For a text, trimming the bytes is trimming the characters. -/
theorem trimSpaceBytes_utf8 (text : String) : trimSpaceBytes (utf8 text) = utf8 (trimSpace text) := by
  have hfront := Strip.strip_flatMap nil_notMem_spaces encode_mem_spaces (fun w hw c rest hpre => by
    obtain ⟨s, hs, rfl⟩ := mem_map.mp hw
    obtain rfl := eq_of_prefix_encode hpre
    exact ⟨(isSpace_iff_mem s).mpr hs, rfl⟩)
  have hback := Strip.stripEnd_flatMap nil_notMem_spaces encode_mem_spaces
    (fun w hw c rest hsuf => by
      obtain ⟨s, hs, rfl⟩ := mem_map.mp hw
      obtain rfl := eq_of_suffix_encode hsuf
      exact ⟨(isSpace_iff_mem s).mpr hs, rfl⟩)
  rw [trimSpaceBytes, trimSpace, utf8_ofList, ← hback, ← hfront, ← utf8_ofList,
    String.ofList_toList]

/-- The bytes start or end with white space. -/
def Spaced (b : Bytes) : Prop := ∃ w ∈ spaces, w <+: b ∨ w <:+ b

theorem not_spaced_trimSpaceBytes (b : Bytes) : ¬Spaced (trimSpaceBytes b) := by
  rintro ⟨w, hw, hpre | hsuf⟩
  · have hfront := Strip.stripEnd_isPrefix nil_notMem_spaces (Strip.strip spaces b)
    exact Strip.not_prefix_strip nil_notMem_spaces b w hw (hpre.trans hfront)
  · exact Strip.not_suffix_stripEnd nil_notMem_spaces _ w hw hsuf

theorem eq_newline_of_suffix {b w : Bytes} (hw : w ∈ spaces) (h : w <:+ b ++ [10]) : w = [10] := by
  have hlast : ∀ w ∈ spaces, w.getLast? = some 10 → w = [10] := by decide
  have hne : w ≠ [] := fun hnil => nil_notMem_spaces (hnil ▸ hw)
  apply hlast w hw
  rw [getLast?_eq_some_getLast hne, h.getLast hne, getLast_concat]

/-- Of a name without white space at its ends, only the newline is taken. -/
theorem trimSpaceBytes_newline {b : Bytes} (h : ¬Spaced b) : trimSpaceBytes (b ++ [10]) = b := by
  have hback : Strip.stripEnd spaces (b ++ [10]) = b := by
    rw [Strip.stripEnd_append nil_notMem_spaces (by decide) fun v hv => eq_newline_of_suffix hv,
      Strip.stripEnd_eq_self]
    exact fun w hw hsuf => h ⟨w, hw, Or.inr hsuf⟩
  cases b with
  | nil => decide
  | cons a b =>
    rw [trimSpaceBytes, Strip.strip_eq_self, hback]
    intro w hw hpre
    -- a word that starts the name and reaches the newline would be the newline
    rcases prefix_concat_iff.mp hpre with heq | hname
    · have hnewline : w = [10] := eq_newline_of_suffix hw ⟨[], heq⟩
      rw [hnewline] at heq
      simp at heq
    · exact h ⟨w, hw, Or.inl hname⟩

end Go

namespace Respond

open Go (Bytes trimSpaceBytes Spaced)

/-! ## The guard -/

/-- The comparison of `signalGuarded`, over bytes: an observed name, if there is one, with what is
read from `/proc/<pid>/comm`. -/
def sameName (comm contents : Bytes) : Bool := comm = [] ∨ trimSpaceBytes contents = comm

theorem recognised_eq_sameName (env : Env) (pid : UInt32) (comm : String) :
    Posture.recognised env pid comm =
      match env.readComm pid with
      | .error _ => decide (comm = "")
      | .ok contents => sameName (Go.utf8 comm) (Go.utf8 contents) := by
  have hnil : Go.utf8 comm = [] ↔ comm = "" := Go.utf8_injective.eq_iff' rfl
  unfold Posture.recognised
  cases env.readComm pid with
  | error err => by_cases hcomm : comm = "" <;> simp [hcomm]
  | ok contents =>
    simp only [sameName, Go.trimSpaceBytes_utf8, hnil, Go.utf8_injective.eq_iff]
    by_cases hcomm : comm = ""
    · simp [hcomm]
    · simp [hcomm]

/-- A process with the name `actual` is signalled under that name only, and under no other, exactly
if the name neither starts nor ends with white space. -/
theorem guard_exact_iff {actual : Bytes} (hlen : actual.length ≤ 15) (hzero : 0 ∉ actual) :
    (∀ comm : Bytes, comm ≠ [] → comm.length ≤ 15 → 0 ∉ comm →
        (sameName comm (actual ++ [10]) = true ↔ comm = actual)) ↔
      ¬Spaced actual := by
  constructor
  · intro hexact hspaced
    have hne : actual ≠ [] := by
      rintro rfl
      obtain ⟨w, hw, hpre | hsuf⟩ := hspaced
      · exact Go.nil_notMem_spaces (prefix_nil.mp hpre ▸ hw)
      · exact Go.nil_notMem_spaces (suffix_nil.mp hsuf ▸ hw)
    -- the process is not recognised under its own name
    have hsame := (hexact actual hne hlen hzero).mpr rfl
    have htrim : trimSpaceBytes (actual ++ [10]) = actual :=
      (of_decide_eq_true hsame).resolve_left hne
    exact Go.not_spaced_trimSpaceBytes (actual ++ [10]) (htrim.symm ▸ hspaced)
  · intro hspaced comm hne _ _
    rw [sameName, decide_eq_true_eq, Go.trimSpaceBytes_newline hspaced]
    exact (or_iff_right hne).trans eq_comm

theorem guard_exact_sshd :
    sameName (Go.ascii "sshd") (Go.ascii "sshd" ++ [10]) = true ∧
      sameName (Go.ascii "sh") (Go.ascii "sshd" ++ [10]) = false := by
  have hexact := (guard_exact_iff (show (Go.ascii "sshd").length ≤ 15 by decide) (by decide)).mpr
    (by unfold Go.Spaced; decide)
  refine ⟨(hexact _ (by decide) (by decide) (by decide)).mpr rfl, ?_⟩
  exact Bool.eq_false_iff.mpr fun h => absurd
    ((hexact _ (by decide) (by decide) (by decide)).mp h) (by decide)

/-- A process that gives itself the name `" a"` is not signalled under its name, but under the name
`"a"` of another one. -/
theorem blank_name_escapes :
    sameName (Go.ascii " a") (Go.ascii " a" ++ [10]) = false ∧
      sameName (Go.ascii "a") (Go.ascii " a" ++ [10]) = true := by
  decide

end Respond
end ArgusEdr
