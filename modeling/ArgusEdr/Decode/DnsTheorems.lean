import ArgusEdr.Decode.Wire

/-!
# The name in a DNS query

A name stands in a query as labels, each with its length before it, and ends with a length of zero.
The decoder also takes labels that end exactly where the captured bytes end (`parseDNSName_iff`).
`scanDNSName` is the decoder with the indexes and slices of the source, none of which is out of range
(`scanDNSName_eq`).
-/

namespace ArgusEdr.Decode

open List

open Go (Bytes)

/-! ## The loop with its indexes -/

/-- `b[i:j]`; none for bounds out of range. -/
def sliceAt (b : Bytes) (i j : ℕ) : Option Bytes :=
  if i ≤ j ∧ j ≤ b.length then some ((b.take j).drop i) else none

/-- The loop of `parseDNSName` from the offset on, with the name so far. None is an index or a slice
out of range, or a loop that does not end within the given rounds. -/
def scanLabels (labels : Bytes) : ℕ → ℕ → Bytes → Option Bytes
  | 0, _, _ => none
  | rounds + 1, offset, name =>
    if offset < labels.length then do
      let length ← labels[offset]?
      if length = 0 then return name
      else if 63 < length.toNat ∨ labels.length < offset + 1 + length.toNat then return []
      else
        let label ← sliceAt labels (offset + 1) (offset + 1 + length.toNat)
        let dot : Bytes := if name = [] then [] else [46]
        scanLabels labels rounds (offset + 1 + length.toNat) (name ++ dot ++ label)
    else return name

def scanDNSName (query : Bytes) : Option Bytes :=
  if query.length ≤ 12 then return []
  else do
    let labels ← sliceAt query 12 query.length
    scanLabels labels (labels.length + 1) 0 []

def extend (name : Bytes) (labels : List Bytes) : Bytes :=
  labels.foldl (fun name label => name ++ (if name = [] then [] else [46]) ++ label) name

theorem dnsLabels_nil : dnsLabels [] = some [] := by
  rw [dnsLabels]

theorem dnsLabels_cons (length : UInt8) (rest : Bytes) :
    dnsLabels (length :: rest) =
      if length = 0 then some []
      else if 63 < length.toNat ∨ rest.length < length.toNat then none
      else (dnsLabels (rest.drop length.toNat)).map (rest.take length.toNat :: ·) := by
  rw [dnsLabels]

theorem scanLabels_eq (labels : Bytes) {rounds offset : ℕ} (name : Bytes)
    (hoffset : offset ≤ labels.length) (hrounds : labels.length < rounds + offset) :
    scanLabels labels rounds offset name =
      some (((dnsLabels (labels.drop offset)).map (extend name)).getD []) := by
  induction rounds generalizing offset name with
  | zero => omega
  | succ rounds ih =>
    rw [scanLabels]
    by_cases hend : offset < labels.length
    · have hrest : (labels.drop (offset + 1)).length = labels.length - (offset + 1) :=
        length_drop
      rw [if_pos hend, getElem?_eq_getElem hend, Option.bind_eq_bind, Option.bind_some,
        drop_eq_getElem_cons hend, dnsLabels_cons]
      by_cases hzero : labels[offset] = 0
      · rw [if_pos hzero, if_pos hzero]
        rfl
      · rw [if_neg hzero, if_neg hzero]
        have hsame : (labels.drop (offset + 1)).length < labels[offset].toNat ↔
            labels.length < offset + 1 + labels[offset].toNat := by omega
        simp only [hsame]
        by_cases hbad : 63 < labels[offset].toNat ∨
            labels.length < offset + 1 + labels[offset].toNat
        · rw [if_pos hbad, if_pos hbad]
          rfl
        · have hfits : offset + 1 + labels[offset].toNat ≤ labels.length := by omega
          have hlabel : sliceAt labels (offset + 1) (offset + 1 + labels[offset].toNat) =
              some ((labels.drop (offset + 1)).take labels[offset].toNat) := by
            rw [sliceAt, if_pos ⟨by omega, hfits⟩, drop_take, Nat.add_sub_cancel_left]
          rw [if_neg hbad, if_neg hbad, hlabel, Option.bind_eq_bind, Option.bind_some,
            ih _ hfits (by omega), drop_drop, Option.map_map]
          rfl
    · rw [if_neg hend, drop_eq_nil_of_le (not_lt.mp hend), dnsLabels_nil]
      rfl

/-! ## Labels -/

def IsLabel (label : Bytes) : Prop := 1 ≤ label.length ∧ label.length ≤ 63

/-- Labels as they stand in a message, each with its length before it. -/
def encodeLabels (labels : List Bytes) : Bytes :=
  labels.flatMap fun label => UInt8.ofNat label.length :: label

theorem encodeLabels_cons (label : Bytes) (labels : List Bytes) :
    encodeLabels (label :: labels) = UInt8.ofNat label.length :: (label ++ encodeLabels labels) := by
  rw [encodeLabels, flatMap_cons, cons_append]
  rfl

def Ends (labels : List Bytes) (b : Bytes) : Prop :=
  encodeLabels labels ++ [0] <+: b ∨ b = encodeLabels labels

theorem IsLabel.toNat_length {label : Bytes} (h : IsLabel label) :
    (UInt8.ofNat label.length).toNat = label.length :=
  UInt8.toNat_ofNat_of_lt' (h.2.trans_lt (by norm_num))

variable {labels : List Bytes}

theorem dnsLabels_of_ends (hlabels : ∀ label ∈ labels, IsLabel label) {b : Bytes}
    (h : Ends labels b) : dnsLabels b = some labels := by
  induction labels generalizing b with
  | nil =>
    cases h with
    | inl hzero =>
      obtain ⟨rest, rfl⟩ := hzero
      exact (dnsLabels_cons 0 rest).trans (if_pos rfl)
    | inr hend => rw [hend]; exact dnsLabels_nil
  | cons label labels ih =>
    rw [forall_mem_cons] at hlabels
    obtain ⟨rest, rfl, hrest⟩ : ∃ rest, b = UInt8.ofNat label.length :: (label ++ rest) ∧
        Ends labels rest := by
      cases h with
      | inl hzero =>
        obtain ⟨tail, rfl⟩ := hzero
        refine ⟨encodeLabels labels ++ [0] ++ tail, ?_, .inl (prefix_append _ _)⟩
        simp [encodeLabels_cons]
      | inr hend => exact ⟨encodeLabels labels, hend.trans (encodeLabels_cons _ _), .inr rfl⟩
    have hlen := hlabels.1.toNat_length
    have hne : UInt8.ofNat label.length ≠ 0 := by
      intro hzero
      rw [hzero] at hlen
      have hpos := hlabels.1.1
      rw [← hlen] at hpos
      exact absurd hpos (by decide)
    have hfits : ¬(63 < label.length ∨ (label ++ rest).length < label.length) := by
      rw [length_append]
      have hle := hlabels.1.2
      omega
    rw [dnsLabels_cons, if_neg hne, hlen, if_neg hfits, drop_left, take_left,
      ih hlabels.2 hrest]
    rfl

theorem ends_of_dnsLabels {b : Bytes} (h : dnsLabels b = some labels) :
    (∀ label ∈ labels, IsLabel label) ∧ Ends labels b := by
  induction b using dnsLabels.induct generalizing labels with
  | case1 =>
    rw [dnsLabels_nil] at h
    cases h
    exact ⟨by simp, .inr rfl⟩
  | case2 rest =>
    rw [dnsLabels_cons, if_pos rfl] at h
    cases h
    exact ⟨by simp, .inl ⟨rest, rfl⟩⟩
  | case3 length rest hne hbad =>
    rw [dnsLabels_cons, if_neg hne, if_pos hbad] at h
    cases h
  | case4 length rest hne hgood ih =>
    rw [dnsLabels_cons, if_neg hne, if_neg hgood] at h
    obtain ⟨labels, htail, rfl⟩ := Option.map_eq_some_iff.mp h
    obtain ⟨hlabels, hends⟩ := ih htail
    rw [not_or, not_lt, not_lt] at hgood
    have hlen : (rest.take length.toNat).length = length.toNat :=
      length_take_of_le hgood.2
    have hpos : length.toNat ≠ 0 := fun hzero => hne (UInt8.toNat_inj.mp hzero)
    -- the label and what follows it make up the rest
    have hencode : encodeLabels (rest.take length.toNat :: labels) =
        length :: (rest.take length.toNat ++ encodeLabels labels) := by
      rw [encodeLabels_cons, hlen, UInt8.ofNat_toNat]
    refine ⟨forall_mem_cons.mpr ⟨⟨by omega, by omega⟩, hlabels⟩, ?_⟩
    have hcut : length :: rest =
        length :: (rest.take length.toNat ++ rest.drop length.toNat) := by
      rw [take_append_drop]
    rw [Ends, hencode, hcut]
    cases hends with
    | inl hzero =>
      left
      rw [cons_append, append_assoc]
      exact (prefix_cons_inj length).mpr ((prefix_append_right_inj _).mpr hzero)
    | inr hend =>
      right
      rw [hend]

/-! ## Names -/

theorem extend_of_ne_nil {name : Bytes} (hname : name ≠ []) (labels : List Bytes) :
    extend name labels = name ++ labels.flatMap (46 :: ·) := by
  induction labels generalizing name with
  | nil => simp [extend]
  | cons label labels ih =>
    rw [extend, foldl_cons, ← extend, if_neg hname, ih (by simp [hname])]
    simp

theorem intercalate_dot (label : Bytes) (labels : List Bytes) :
    ([46] : Bytes).intercalate (label :: labels) = label ++ labels.flatMap (46 :: ·) := by
  induction labels generalizing label with
  | nil => simp
  | cons next labels ih =>
    rw [intercalate_cons_cons, ih]
    simp

theorem extend_nil (h : ∀ label ∈ labels, IsLabel label) :
    extend [] labels = ([46] : Bytes).intercalate labels := by
  cases labels with
  | nil => rfl
  | cons label labels =>
    have hne : label ≠ [] := ne_nil_of_length_pos (h label mem_cons_self).1
    rw [extend, foldl_cons, ← extend, if_pos rfl, nil_append, nil_append,
      extend_of_ne_nil hne, intercalate_dot]

/-- No index and no slice of `parseDNSName` is out of range, and its loop ends. -/
theorem scanDNSName_eq (query : Bytes) : scanDNSName query = some (parseDNSName query) := by
  rw [scanDNSName, parseDNSName]
  split
  · rfl
  · next hlen =>
    have hlabels : sliceAt query 12 query.length = some (query.drop 12) := by
      rw [sliceAt, if_pos ⟨by omega, le_rfl⟩, take_length]
    rw [hlabels, Option.bind_eq_bind, Option.bind_some,
      scanLabels_eq _ _ (Nat.zero_le _) (by omega), drop_zero]
    cases hparse : dnsLabels (query.drop 12) with
    | none => rfl
    | some =>
      exact congrArg some (extend_nil (ends_of_dnsLabels hparse).1)

theorem parseDNSName_of_ends {query : Bytes} (hne : labels ≠ [])
    (hlabels : ∀ label ∈ labels, IsLabel label) (h : Ends labels (query.drop 12)) :
    parseDNSName query = ([46] : Bytes).intercalate labels := by
  have hlen : 12 < query.length := by
    by_contra hshort
    have hparse := dnsLabels_of_ends hlabels h
    rw [drop_eq_nil_of_le (not_lt.mp hshort), dnsLabels_nil] at hparse
    exact hne (Option.some.inj hparse).symm
  rw [parseDNSName, if_neg (not_le.mpr hlen), dnsLabels_of_ends hlabels h]
  rfl

/-- The names found in a message are those of one or more labels of 1 to 63 bytes that stand behind
the header and end with a zero, or where the message ends. Nothing is read out of range. -/
theorem parseDNSName_iff (query : Bytes) :
    scanDNSName query = some (parseDNSName query) ∧
      ∀ name, name ≠ [] →
        (parseDNSName query = name ↔
          ∃ labels : List Bytes, labels ≠ [] ∧ (∀ label ∈ labels, IsLabel label) ∧
            (encodeLabels labels ++ [0] <+: query.drop 12 ∨
              query.drop 12 = encodeLabels labels) ∧
            name = ([46] : Bytes).intercalate labels) := by
  refine ⟨scanDNSName_eq query, fun name hname => ⟨?_, ?_⟩⟩
  · rintro rfl
    have hlen : ¬query.length ≤ 12 := by
      intro hshort
      rw [parseDNSName, if_pos hshort] at hname
      exact hname rfl
    rw [parseDNSName, if_neg hlen] at hname ⊢
    cases hparse : dnsLabels (query.drop 12) with
    | none =>
      rw [hparse] at hname
      exact absurd rfl hname
    | some labels =>
      rw [hparse] at hname
      obtain ⟨hlabels, hends⟩ := ends_of_dnsLabels hparse
      refine ⟨labels, ?_, hlabels, hends, rfl⟩
      rintro rfl
      exact hname rfl
  · rintro ⟨labels, hne, hlabels, hends, rfl⟩
    exact parseDNSName_of_ends hne hlabels hends

theorem parseDNSName_io :
    parseDNSName (List.replicate 12 0 ++ [2, 105, 111, 0]) = Go.ascii "io" := by
  refine ((parseDNSName_iff _).2 _ (by decide)).mpr ⟨[Go.ascii "io"], by simp, ?_, .inl ?_, rfl⟩
  · simp [IsLabel, Go.ascii]
  · decide

/-- A name of 61 labels that fills the captured bytes. -/
def longName : List Bytes := List.replicate 61 (Go.ascii "abc")

/-- All 256 bytes of the capture are used up before a zero comes, and the name is still reported. -/
theorem unterminated_name_reported :
    let query := List.replicate 12 0 ++ encodeLabels longName
    query.length = domainLen ∧ 0 ∉ query.drop 12 ∧
      parseDNSName query = ([46] : Bytes).intercalate longName ∧ parseDNSName query ≠ [] := by
  intro query
  have hdrop : query.drop 12 = encodeLabels longName := drop_left' rfl
  have hlabels : ∀ label ∈ longName, IsLabel label := by
    intro label hlabel
    rw [eq_of_mem_replicate hlabel]
    exact ⟨by decide, by decide⟩
  have hparse : parseDNSName query = ([46] : Bytes).intercalate longName :=
    parseDNSName_of_ends (by decide) hlabels (.inr hdrop)
  refine ⟨by decide +kernel, ?_, hparse, ?_⟩
  · rw [hdrop]
    decide +kernel
  · rw [hparse]
    decide +kernel

end ArgusEdr.Decode
