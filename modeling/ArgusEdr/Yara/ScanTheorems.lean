import ArgusEdr.Yara.Signature

/-!
# What a scan finds

`patternMatches_iff` says what the search of the engine finds, and `eval_condition` what a condition
amounts to over the patterns that were found. A rule implements a signature if it has its patterns
and a condition that is true in the same cases; it then fires exactly when the signature holds
(`Implements.fires_iff`), and a scan returns the names of the signatures that do (`scan_eq`).
-/

namespace ArgusEdr.Yara

open List

open Go (Bytes)

/-! ## Patterns -/

/-- The byte is as this position of a pattern says. -/
def HexByte.Admits (nocase : Bool) (hb : HexByte) (got : UInt8) : Prop :=
  hb.wild = true ∨ (if nocase then fold got = fold hb.value else got = hb.value)

theorem matchAt_iff {pat : Pattern} {window : Bytes} (h : pat.bytes.length = window.length) :
    matchAt pat window = true ↔ List.Forall₂ (HexByte.Admits pat.nocase) pat.bytes window := by
  rw [forall₂_iff_zip, matchAt, all_eq_true]
  constructor
  · intro hall
    refine ⟨h, fun hmem => ?_⟩
    simpa [HexByte.Admits] using hall _ hmem
  · rintro ⟨-, hall⟩ ⟨hb, got⟩ hmem
    simpa [HexByte.Admits] using hall hmem

theorem patternMatches_iff {pat : Pattern} (hne : pat.bytes ≠ []) (data : Bytes) :
    patternMatches pat data = true ↔ ∃ before window after, data = before ++ (window ++ after) ∧
      List.Forall₂ (HexByte.Admits pat.nocase) pat.bytes window := by
  have hpos := length_pos_iff.mpr hne
  unfold patternMatches
  dsimp only
  constructor
  · intro h
    split at h
    · cases h
    · next hlen =>
      obtain ⟨start, hstart, hmatch⟩ := any_eq_true.mp h
      rw [mem_range] at hstart
      have hwindow : pat.bytes.length = ((data.drop start).take pat.bytes.length).length := by
        rw [length_take, length_drop]
        omega
      refine ⟨data.take start, (data.drop start).take pat.bytes.length,
        (data.drop start).drop pat.bytes.length, ?_, (matchAt_iff hwindow).mp hmatch⟩
      rw [take_append_drop, take_append_drop]
  · rintro ⟨before, window, after, rfl, hfits⟩
    have hwindow := hfits.length_eq
    have hlen : ¬(pat.bytes.length = 0 ∨
        (before ++ (window ++ after)).length < pat.bytes.length) := by
      simp only [length_append]
      omega
    rw [if_neg hlen, any_eq_true]
    refine ⟨before.length, ?_, ?_⟩
    · rw [mem_range]
      simp only [length_append]
      omega
    · rw [drop_left, hwindow, take_left]
      exact (matchAt_iff hwindow).mpr hfits

theorem fold_eq_fold_iff (a b : UInt8) : fold b = fold a ↔ SameLetter a b := by
  unfold fold SameLetter
  simp only [UInt8.le_iff_toNat_le, ← UInt8.toNat_inj]
  split_ifs <;> simp only [UInt8.toNat_add, UInt8.reduceToNat] at * <;> omega

/-! ## Declarations -/

def hexByte : Option UInt8 → HexByte
  | none => { wild := true }
  | some value => { value }

def Declaration.pattern (d : Declaration) : Pattern :=
  match d.literal with
  | .text bytes nocase => { id := d.id, text := true, bytes := bytesToHex bytes, nocase }
  | .hex bytes => { id := d.id, bytes := bytes.map hexByte }

@[simp] theorem Declaration.id_pattern (d : Declaration) : d.pattern.id = d.id := by
  unfold pattern
  split <;> rfl

theorem Declaration.length_bytes_pattern (d : Declaration) :
    d.pattern.bytes.length = d.literal.length := by
  unfold pattern
  split
  · next heq => simp [heq, Literal.length, bytesToHex]
  · next heq => simp [heq, Literal.length]

theorem Declaration.fits_iff (d : Declaration) (window : Bytes) :
    List.Forall₂ (HexByte.Admits d.pattern.nocase) d.pattern.bytes window ↔
      d.literal.Fits window := by
  unfold pattern
  split
  · next bytes nocase heq =>
    rw [heq, bytesToHex, forall₂_map_left_iff]
    cases nocase with
    | false =>
      simp only [HexByte.Admits, Bool.false_eq_true, if_false, false_or, Literal.Fits]
      have hsymm : (fun c b : UInt8 => b = c) = Eq := by
        ext c b
        exact eq_comm
      rw [hsymm, forall₂_eq_eq_eq, eq_comm]
    | true =>
      simp only [HexByte.Admits, Bool.false_eq_true, if_true, false_or, Literal.Fits,
        fold_eq_fold_iff]
  · next bytes heq =>
    have hposition : ∀ (h : Option UInt8) (b : UInt8),
        (hexByte h).Admits false b ↔ ∀ v ∈ h, b = v := by
      intro h b
      cases h with
      | none | some => simp [hexByte, HexByte.Admits]
    simp only [heq, forall₂_map_left_iff, Literal.Fits, hposition]

theorem Declaration.patternMatches_pattern (d : Declaration) (data : Bytes) :
    patternMatches d.pattern data = true ↔ d.Occurs data := by
  have hne : d.pattern.bytes ≠ [] := by
    rw [← length_pos_iff, d.length_bytes_pattern]
    exact Nat.pos_of_ne_zero d.literal_ne
  simp only [patternMatches_iff hne, d.fits_iff, Occurs]

/-! ## Conditions -/

def Expr.condition : Expr → Condition
  | .ident name => .identNode (byte '$' :: name)
  | .bool v => .boolNode v
  | .allOfThem => .quantNode (-1)
  | .anyOfThem => .quantNode 0
  | .ofThem n => .quantNode n
  | .not e => .notNode e.condition
  | .and a b => .andNode a.condition b.condition
  | .or a b => .orNode a.condition b.condition

theorem search_eq (r : Rule) (data : Bytes) :
    r.search data =
      (((r.patterns.filter fun pat => patternMatches pat data).map Pattern.id).reverse,
        (r.patterns.filter fun pat => patternMatches pat data).length) := by
  have hloop : ∀ (patterns : List Pattern) (hits : List Bytes) (count : ℕ),
      patterns.foldl (fun found pat =>
        if patternMatches pat data then (pat.id :: found.1, found.2 + 1) else found)
        (hits, count) =
      (((patterns.filter fun pat => patternMatches pat data).map Pattern.id).reverse ++ hits,
        count + (patterns.filter fun pat => patternMatches pat data).length) := by
    intro patterns
    induction patterns with
    | nil => simp
    | cons pat patterns ih =>
      intro hits count
      rw [foldl_cons]
      by_cases hmatch : patternMatches pat data = true
      · simp only [hmatch, if_true, ih, filter_cons_of_pos, map_cons, reverse_cons,
          append_assoc, singleton_append, length_cons]
        congr 1
        omega
      · simp only [hmatch, if_false, ih, filter_cons_of_neg, not_false_eq_true,
          Bool.false_eq_true]
  show r.patterns.foldl (fun found pat =>
    if patternMatches pat data then (pat.id :: found.1, found.2 + 1) else found) ([], 0) = _
  rw [hloop, append_nil, Nat.zero_add]

theorem le_length_filter_iff {α : Type} (p : α → Bool) (l : List α) (n : ℕ) :
    n ≤ (l.filter p).length ↔
      ∃ some : List α, some.Sublist l ∧ n = some.length ∧ ∀ a ∈ some, p a = true := by
  constructor
  · intro hn
    refine ⟨(l.filter p).take n, ?_, ?_, ?_⟩
    · exact (take_sublist n _).trans filter_sublist
    · rw [length_take, Nat.min_eq_left hn]
    · intro a ha
      exact (mem_filter.mp (mem_of_mem_take ha)).2
  · rintro ⟨some, hsub, rfl, hsome⟩
    have hle := (hsub.filter p).length_le
    rwa [filter_eq_self.mpr hsome] at hle

section
variable (strings : List Declaration) (data : Bytes)

def found : List Declaration := strings.filter fun d => patternMatches d.pattern data

theorem mem_found {d : Declaration} : d ∈ found strings data ↔ d ∈ strings ∧ d.Occurs data := by
  rw [found, mem_filter, d.patternMatches_pattern]

theorem le_length_found_iff (n : ℕ) :
    n ≤ (found strings data).length ↔
      ∃ some : List Declaration, some.Sublist strings ∧ n = some.length ∧
        ∀ d ∈ some, d.Occurs data := by
  rw [found, le_length_filter_iff]
  simp only [Declaration.patternMatches_pattern]

theorem eval_condition {e : Expr} (hscoped : e.Scoped strings) :
    e.condition.eval ((found strings data).map Declaration.id).reverse strings.length
      (found strings data).length = true ↔ e.Holds strings data := by
  induction e with
  | ident =>
    simp only [Expr.condition, Condition.eval, decide_eq_true_iff, mem_reverse, mem_map,
      mem_found, Declaration.id, List.cons.injEq, true_and, Expr.Holds]
    constructor
    · rintro ⟨d, ⟨hd, hoccurs⟩, hname⟩
      exact ⟨d, hd, hname, hoccurs⟩
    · rintro ⟨d, hd, hname, hoccurs⟩
      exact ⟨d, ⟨hd, hoccurs⟩, hname⟩
  | bool => exact Iff.rfl
  | allOfThem =>
    have hlen : (found strings data).length = strings.length ↔ ∀ d ∈ strings, d.Occurs data := by
      rw [found, length_filter_eq_length_iff]
      simp only [Declaration.patternMatches_pattern]
    exact decide_eq_true_iff.trans hlen
  | anyOfThem =>
    have hlen : 1 ≤ (found strings data).length ↔ ∃ d ∈ strings, d.Occurs data := by
      rw [Nat.one_le_iff_ne_zero, ← Nat.pos_iff_ne_zero, length_pos_iff_exists_mem]
      simp only [mem_found]
    exact decide_eq_true_iff.trans hlen
  | ofThem n =>
    have hpos : 1 ≤ n.toInt := Int64.le_iff_toInt_le.mp hscoped.1
    have hneg : ¬n < 0 := by
      rw [Int64.lt_iff_toInt_lt]
      exact not_lt.mpr (zero_le_one.trans hpos)
    have hzero : n ≠ 0 := by
      rintro rfl
      exact absurd hpos (by decide)
    obtain ⟨m, hm⟩ := Int.eq_ofNat_of_zero_le (zero_le_one.trans hpos)
    rw [Expr.condition, Condition.eval, if_neg hneg, if_neg hzero, decide_eq_true_iff, Expr.Holds, hm,
      Int.ofNat_le, le_length_found_iff]
    simp only [Nat.cast_inj]
  | not e ih =>
    rw [Expr.condition, Condition.eval, Bool.not_eq_true', ← Bool.not_eq_true, ih hscoped]
    exact Iff.rfl
  | and a b iha ihb =>
    rw [Expr.condition, Condition.eval, Bool.and_eq_true, iha hscoped.1, ihb hscoped.2]
    exact Iff.rfl
  | or a b iha ihb =>
    rw [Expr.condition, Condition.eval, Bool.or_eq_true, iha hscoped.1, ihb hscoped.2]
    exact Iff.rfl

end

/-! ## Rules -/

/-- Conditions that are true in the same cases. -/
def Condition.Same (c c' : Condition) : Prop :=
  ∀ hits total count, c.eval hits total count = c'.eval hits total count

/-- The rule is the signature as the engine holds it, but for the nesting of its condition. -/
structure Implements (r : Rule) (s : Signature) : Prop where
  name_eq : r.name = s.name
  patterns_eq : r.patterns = s.strings.map Declaration.pattern
  cond_same : r.cond.Same s.condition.condition

theorem Implements.fires_iff {r : Rule} {s : Signature} (h : Implements r s) (data : Bytes) :
    r.fires data = true ↔ s.Holds data := by
  have hfilter : r.patterns.filter (fun pat => patternMatches pat data) =
      (found s.strings data).map Declaration.pattern := by
    rw [h.patterns_eq, filter_map]
    rfl
  have hids : ((found s.strings data).map Declaration.pattern).map Pattern.id =
      (found s.strings data).map Declaration.id := by
    rw [map_map]
    exact map_congr_left fun d _ => d.id_pattern
  rw [Rule.fires, search_eq, hfilter, hids, h.patterns_eq, length_map, length_map]
  show r.cond.eval _ _ _ = true ↔ _
  rw [h.cond_same]
  exact eval_condition s.strings data s.condition_scoped

open Classical in
theorem scan_eq {rules : List Rule} {signatures : List Signature}
    (h : List.Forall₂ Implements rules signatures) {data : Bytes} (hdata : data ≠ []) :
    scan (some { rules }) data =
      (signatures.filter fun s => s.Holds data).map Signature.name := by
  have hlen : data.length ≠ 0 := (length_pos_iff.mpr hdata).ne'
  show (if data.length = 0 then [] else (rules.filter fun r => r.fires data).map Rule.name) = _
  rw [if_neg hlen]
  clear hdata hlen
  induction h with
  | nil => rfl
  | @cons r s rules signatures hr _ ih =>
    have hfires := hr.fires_iff data
    rw [filter_cons, filter_cons]
    by_cases hs : s.Holds data
    · rw [if_pos (hfires.mpr hs), if_pos (decide_eq_true hs), map_cons, map_cons, ih,
        hr.name_eq]
    · rw [if_neg (hs ∘ hfires.mp), if_neg (hs ∘ of_decide_eq_true), ih]

end ArgusEdr.Yara
