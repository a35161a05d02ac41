import ArgusEdr.Yara.ConditionTheorems
import ArgusEdr.Yara.SafetyTheorems

/-!
# What conditions can ask for

A condition names patterns and asks for a number of them. The compiler checks neither against the
patterns of the rule: a part of a condition is matched by some data exactly if the rule declares what
it needs (`matches_iff_declares`). The number is kept in an `int`, of which zero and the negative
values have meanings of their own, so that a literal means its value exactly if it is an `int` and
not zero (`ofThem_iff`).
-/

namespace ArgusEdr.Yara

open List

open Go (Bytes ascii)
open Reading Reading.Cursor

/-! ## Occurrences -/

def Pattern.Occurs (pat : Pattern) (data : Bytes) : Prop :=
  ∃ before window after, data = before ++ (window ++ after) ∧
    List.Forall₂ (HexByte.Admits pat.nocase) pat.bytes window

def Rule.AtLeast (r : Rule) (n : ℕ) (data : Bytes) : Prop :=
  ∃ some : List Pattern, some.Sublist r.patterns ∧ n = some.length ∧ ∀ pat ∈ some, pat.Occurs data

/-- What a condition comes to for the rule: whether the rule would fire with it. -/
def Rule.evaluates (r : Rule) (data : Bytes) (C : Condition) : Bool :=
  Rule.fires { r with cond := C } data

section
variable {r : Rule} {data : Bytes}

def Rule.hits (r : Rule) (data : Bytes) : List Pattern :=
  r.patterns.filter fun pat => patternMatches pat data

theorem evaluates_eq (C : Condition) :
    r.evaluates data C =
      C.eval ((r.hits data).map Pattern.id).reverse r.patterns.length (r.hits data).length := by
  rw [Rule.evaluates, Rule.fires, search_eq]
  rfl

theorem mem_hits (h : r.Proper) {pat : Pattern} :
    pat ∈ r.hits data ↔ pat ∈ r.patterns ∧ pat.Occurs data := by
  rw [Rule.hits, mem_filter]
  exact and_congr_right fun hpat => patternMatches_iff (h pat hpat) data

theorem le_length_hits_iff (h : r.Proper) (n : ℕ) :
    n ≤ (r.hits data).length ↔ r.AtLeast n data := by
  rw [Rule.hits, le_length_filter_iff]
  refine exists_congr fun some => and_congr_right fun hsub => and_congr_right fun _ => ?_
  exact forall₂_congr fun pat hpat => patternMatches_iff (h pat (hsub.subset hpat)) data

/-! ## Data that has every pattern -/

theorem HexByte.admits_value (nocase : Bool) (hb : HexByte) : hb.Admits nocase hb.value := by
  right
  split <;> rfl

/-- The values of all patterns, one after the other, behind a byte for a rule that has none. -/
def Rule.sample (r : Rule) : Bytes := 0 :: r.patterns.flatMap fun pat => pat.bytes.map HexByte.value

theorem occurs_sample {pat : Pattern} (hpat : pat ∈ r.patterns) : pat.Occurs r.sample := by
  obtain ⟨front, back, hsplit⟩ := append_of_mem hpat
  refine ⟨0 :: front.flatMap fun p => p.bytes.map HexByte.value, pat.bytes.map HexByte.value,
    back.flatMap fun p => p.bytes.map HexByte.value, ?_, ?_⟩
  · rw [Rule.sample, hsplit, flatMap_append, flatMap_cons, cons_append]
  · rw [forall₂_map_right_iff]
    exact forall₂_same.mpr fun hb _ => hb.admits_value pat.nocase

theorem hits_sample (h : r.Proper) : r.hits r.sample = r.patterns :=
  filter_eq_self.mpr fun pat hpat =>
    (patternMatches_iff (h pat hpat) _).mpr (occurs_sample hpat)

end

/-! ## Parts of conditions -/

def Condition.parts : Condition → List Condition
  | .identNode id => [.identNode id]
  | .quantNode need => [.quantNode need]
  | .boolNode _ => []
  | .notNode inner => inner.parts
  | .andNode left right | .orNode left right => left.parts ++ right.parts

/-- The rule has the patterns that a part of its condition needs: the one with the identifier, at
least one for `any`, and as many as are asked for otherwise. -/
def Rule.Declares (r : Rule) : Condition → Prop
  | .identNode id => id ∈ r.patterns.map Pattern.id
  | .quantNode need => need < 0 ∨ max 1 need.toInt ≤ r.patterns.length
  | _ => True

theorem isPart_of_mem_parts {C part : Condition} (h : part ∈ C.parts) :
    (∃ id, part = .identNode id) ∨ ∃ need, part = .quantNode need := by
  induction C with
  | identNode id => exact .inl ⟨id, mem_singleton.mp h⟩
  | boolNode => cases h
  | notNode inner ih => exact ih h
  | andNode left right ihl ihr | orNode left right ihl ihr =>
    exact (mem_append.mp h).elim ihl ihr
  | quantNode need => exact .inr ⟨need, mem_singleton.mp h⟩

theorem neg_iff_toInt (need : Int64) : need < 0 ↔ need.toInt < 0 := by
  rw [Int64.lt_iff_toInt_lt, Int64.toInt_zero]

theorem eval_quantNode (need : Int64) (hits : List Bytes) (total count : ℕ) :
    (Condition.quantNode need).eval hits total count = true ↔
      if need < 0 then count = total else max 1 need.toInt ≤ count := by
  rw [Condition.eval]
  split_ifs with hneg hzero
  · exact decide_eq_true_iff
  · rw [hzero, Int64.toInt_zero, decide_eq_true_iff]
    omega
  · have hne : need.toInt ≠ 0 := fun h => hzero (Int64.toInt_inj.mp h)
    rw [neg_iff_toInt] at hneg
    rw [decide_eq_true_iff]
    omega

section
variable {source : Bytes} {engine : Engine}

theorem proper_of_compile (h : compile source = .ok engine) {r : Rule} (hr : r ∈ engine.rules) :
    r.Proper := by
  have hsafe := safe_compileRounds False.elim (inside_start source False)
  cases hrun : (forever compileRound []).run { src := source } with
  | error =>
    rw [compile_of_run_error hrun] at h
    cases h
  | ok =>
    rw [compile_of_run_ok hrun] at h
    split at h
    · cases h
    · cases h
      exact hsafe.post_of_run hrun r hr

end

/-- `rule a { strings: $x = "x" condition: ... of them }`. -/
def ofThem (need : Int64) : Rule where
  name := ascii "a"
  patterns := [{ id := ascii "$x", text := true, bytes := bytesToHex (ascii "x") }]
  cond := .quantNode need

/-- `rule a { condition: $x or 3 of them }`. -/
def undeclared : Rule where
  name := ascii "a"
  cond := .orNode (.identNode (ascii "$x")) (.quantNode 3)

section
variable {ds : List Char} {rest before : Bytes} {c c' : Cursor UInt8} {parseOr : Parser Condition}
  {C : Condition}

theorem eq_quantNode_of_digits (hds : ∀ d ∈ ds, d.isDigit = true) (hne : ds ≠ [])
    (hrest : ∀ b ∈ rest.head?, isDigit b = false)
    (hspace : skipSpace.run c = .ok ((), between before (ds.map byte ++ rest)))
    (h : (parsePrimary parseOr).run c = .ok (C, c')) :
    C = .quantNode (Int64.ofNat (Nat.ofDigitChars 10 ds 0)) := by
  obtain ⟨d, ds', rfl⟩ := exists_cons_of_ne_nil hne
  have hd := (digit_byte (hds d mem_cons_self)).1
  obtain ⟨-, -, hparen, hdollar⟩ := isDigit_spec _ hd
  have hpeek : ((d :: ds').map byte ++ rest).head? = some (byte d) := rfl
  rw [parsePrimary, run_bind_ok hspace, run_bind_ok (run_peekChar hpeek before),
    if_neg hparen, if_neg hdollar, if_pos hd, run_bind_ok (run_parseNumber hds hrest)] at h
  generalize between (before ++ (d :: ds').map byte) rest = c₁ at h
  have hinside : Inside c₁.src False (c₁.rest.length + 1) c₁ := ⟨rfl, False.elim, Nat.lt_succ_self _⟩
  exact ((safe_parseQuantifier False.elim _ hinside).post_of_run h).1

/-- A rule of so many patterns that are found in any data. -/
def wildRule (k : ℕ) : Rule where
  name := ascii "any"
  patterns := List.replicate k { id := ascii "$any", bytes := [{ wild := true }] }
  cond := .boolNode true

theorem proper_wildRule (k : ℕ) : (wildRule k).Proper := by
  intro pat hpat
  rw [eq_of_mem_replicate hpat]
  exact cons_ne_nil _ _

theorem hits_wildRule (k : ℕ) : (wildRule k).hits [0] = (wildRule k).patterns := by
  refine filter_eq_self.mpr fun pat hpat => ?_
  rw [eq_of_mem_replicate hpat]
  decide

/-- A literal in front of `of them` asks for as many patterns as it says exactly if it is not zero
and an `int`. -/
theorem ofThem_iff (hds : ∀ d ∈ ds, d.isDigit = true) (hne : ds ≠ [])
    (hrest : ∀ b ∈ rest.head?, isDigit b = false)
    (hspace : skipSpace.run c = .ok ((), between before (ds.map byte ++ rest)))
    (h : (parsePrimary parseOr).run c = .ok (C, c')) :
    (∀ r : Rule, r.Proper → ∀ data,
      (r.evaluates data C = true ↔ r.AtLeast (Nat.ofDigitChars 10 ds 0) data)) ↔
    1 ≤ Nat.ofDigitChars 10 ds 0 ∧ Nat.ofDigitChars 10 ds 0 < 2 ^ 63 := by
  rw [eq_quantNode_of_digits hds hne hrest hspace h]
  generalize Nat.ofDigitChars 10 ds 0 = n
  constructor
  · intro hall
    -- on a rule of `k` patterns that are all found the two sides are about `k` alone
    have hwild : ∀ k : ℕ, (if Int64.ofNat n < 0 then k = k else max 1 (Int64.ofNat n).toInt ≤ k) ↔
        n ≤ k := by
      intro k
      have hk := hall (wildRule k) (proper_wildRule k) [0]
      rw [evaluates_eq, eval_quantNode, ← le_length_hits_iff (proper_wildRule k), hits_wildRule,
        wildRule, length_replicate] at hk
      exact hk
    by_cases hneg : Int64.ofNat n < 0
    · -- the rule without patterns has all of them
      have hn := (hwild 0).mp (by rw [if_pos hneg])
      rw [Nat.le_zero.mp hn] at hneg
      exact absurd hneg (by decide)
    · simp only [if_neg hneg] at hwild
      have hzero := hwild 0
      have hmax := hwild (max 1 (Int64.ofNat n).toInt).toNat
      have hlt := Int64.toInt_lt (Int64.ofNat n)
      omega
  · rintro ⟨hpos, hlt⟩ r hr data
    have hvalue : (Int64.ofNat n).toInt = n := Int64.toInt_ofNat_of_lt hlt
    have hneg : ¬Int64.ofNat n < 0 := by
      rw [neg_iff_toInt, hvalue]
      omega
    rw [evaluates_eq, eval_quantNode, if_neg hneg, hvalue, ← le_length_hits_iff hr]
    omega

end

theorem ofThem_iff_two :
    ∃ C c', (parsePrimary parseCondition).run (between [] (ascii "2 of them")) = .ok (C, c') ∧
      ∀ r : Rule, r.Proper → ∀ data, (r.evaluates data C = true ↔ r.AtLeast 2 data) := by
  have hspace : skipSpace.run (between [] (ascii "2 of them")) =
      .ok ((), between [] (['2'].map byte ++ ascii " of them")) := by
    have hsolid : Solid (ascii "2 of them") := ⟨by decide, by decide⟩
    exact run_skipSpace_solid hsolid []
  obtain ⟨C, c', hrun⟩ : ∃ C c', (parsePrimary parseCondition).run
      (between [] (ascii "2 of them")) = .ok (C, c') :=
    ⟨_, _, parsePrimary_number blank_nil parseCondition 2 [] [] nofun⟩
  refine ⟨C, c', hrun, ?_⟩
  have hspaceAfter : ∀ b ∈ (ascii " of them").head?, isDigit b = false := by
    rintro b ⟨⟩
    decide
  exact (ofThem_iff (by simp) (by simp) hspaceAfter hspace hrun).mpr (by decide)

/-- No pattern at all is too few for `0 of them`, and one is enough for a number past the values of
an `int`. -/
theorem zero_and_overflow :
    (compile (ascii "rule a \x7b strings: $x = \"x\" condition: 0 of them \x7d") =
        .ok { rules := [ofThem 0] } ∧
      (ofThem 0).AtLeast 0 (ascii "y") ∧
      scan (some { rules := [ofThem 0] }) (ascii "y") = []) ∧
    compile (ascii
        "rule a \x7b strings: $x = \"x\" condition: 18446744073709551617 of them \x7d") =
        .ok { rules := [ofThem 1] } ∧
      ¬(ofThem 1).AtLeast 18446744073709551617 (ascii "x") ∧
      scan (some { rules := [ofThem 1] }) (ascii "x") = [ascii "a"] := by
  refine ⟨⟨by decide +kernel, ⟨[], nil_sublist _, rfl, nofun⟩, by decide⟩, by decide +kernel,
    ?_, by decide⟩
  rintro ⟨some, hsub, hlen, -⟩
  have hle := hsub.length_le
  rw [← hlen] at hle
  exact absurd hle (by decide)

end ArgusEdr.Yara
