import ArgusEdr.Go.Number
import ArgusEdr.Hunt.ParserTheorems

/-!
# A comparison and the rule leaf it becomes

`Comparison.eval` and the predicate of the leaf of the comparison read fields and literals in different
ways. It shows for an absent field under `!=`, for a literal that only one of the two takes as equal to
the field (`Literal.Split`), for a text operator on a field that is no string or with a number that is
not in decimal, and for an order on a string that reads as a number (`Comparison.ReadAlike`). Elsewhere
the two agree, and nowhere else: `eval_eq_leaf_iff`.
-/

namespace ArgusEdr.Hunt

open List

open Model (Event FieldValue)
open Go (Library Classes IsInt64 IsSmall)
open Detect (Predicate compileLeaf valuesEqual equality toInt64)

/-! ## Fields -/

/-- If the field is an integer, it is one of `int64`. -/
def Ranged (value : Option FieldValue) : Prop := ∀ n, value = some (.int n) → IsInt64 n

theorem ranged_int {n : ℤ} (h : IsInt64 n) : Ranged (some (.int n)) := by
  rintro _ ⟨⟩
  exact h

theorem ranged_nat {n : ℕ} (h : n < 2 ^ 63) : Ranged (some (.int n)) := by
  refine ranged_int ⟨?_, ?_⟩
  · linarith [Int.natCast_nonneg n]
  · exact_mod_cast h

theorem ranged_textField (s : String) : Ranged (Model.textField s) := by
  unfold Model.textField
  split <;> rintro _ ⟨⟩

theorem ranged_nonzeroField {n : ℕ} (h : n < 2 ^ 63) : Ranged (Model.nonzeroField n) := by
  unfold Model.nonzeroField
  split
  · rintro _ ⟨⟩
  · exact ranged_nat h

theorem isInt64_of_field {e : Event} {path : String} {n : ℤ}
    (h : e.field path = some (.int n)) : IsInt64 n := by
  have h32 : ∀ k : UInt32, k.toNat < 2 ^ 63 := fun k => k.toNat_lt.trans (by decide)
  have h16 : ∀ k : UInt16, k.toNat < 2 ^ 63 := fun k => k.toNat_lt.trans (by decide)
  have hyara : ∀ names : List String,
      Ranged (if names = [] then none else some (.str (String.intercalate "," names))) := by
    intro names
    split <;> rintro _ ⟨⟩
  have hall : ∀ entry ∈ Model.fieldAccessors, ∀ e, Ranged (entry.2 e) := by
    simp only [Model.fieldAccessors, forall_mem_cons]
    and_intros
    all_goals first
      | exact fun e => ranged_textField _
      | exact fun e => ranged_nat (h32 _)
      | exact fun e => ranged_nat (h16 _)
      | exact fun e => ranged_nonzeroField (h32 _)
      | exact fun e => ranged_nonzeroField (h16 _)
      | exact fun e => ranged_int ⟨Int64.le_toInt _, Int64.toInt_lt _⟩
      | exact fun e => hyara _
      | exact fun entry hentry => absurd hentry not_mem_nil
      | rintro e _ ⟨⟩
  obtain ⟨accessor, haccessor, hvalue⟩ := Option.bind_eq_some_iff.mp h
  exact hall _ (Go.mem_of_lookup haccessor) e n hvalue

/-! ## Texts of numbers and booleans -/

theorem parseBool_formatBool (b : Bool) : Go.parseBool (Go.formatBool b) = some b := by
  cases b <;> decide

theorem not_mem_toString (n : ℤ) : 'e' ∉ (ToString.toString n : String).toList := by
  rw [Int.toString_eq_repr]
  exact Go.notMem_repr_int (by decide) (by decide) n

theorem IsNumber.ne_formatBool {cls : Classes} {written : String} (h : IsNumber cls written)
    (b : Bool) : written ≠ Go.formatBool b := by
  rintro rfl
  obtain ⟨c, hhead, hletter, hascii⟩ : ∃ c, (Go.formatBool b).toList.head? = some c ∧
      c.isDigit = false ∧ c.toNat < 128 := by
    cases b
    · exact ⟨'f', by decide⟩
    · exact ⟨'t', by decide⟩
  have hdigit := h.1
  rw [hhead, Option.any_some, cls.isDigit_ascii c hascii, hletter] at hdigit
  cases hdigit

/-! ## Literals -/

section
variable [Library]

def Literal.Whole : Literal → Prop
  | .text s => ∀ n, Go.parseInt64 s = some n → IsSmall n
  | .number _ num => ∃ n, IsSmall n ∧ num = Library.ofInt64 n

/-- Exactly one of the hunt and the rule takes the literal as equal to the field. -/
def Literal.Split (v : Literal) (raw : FieldValue) : Prop :=
  match raw, v with
  | .int n, .text s => Go.parseInt64 s = none ∧
      ∃ x, Library.parseFloat s = some x ∧ Library.eq (Library.ofInt64 n) x = true
  | .bool b, .text s => Go.parseBool s = some b ∧ s ≠ Go.formatBool b
  | .str s, .number _ num => 10 ^ 6 ≤ |Library.toInt64 num| ∧
      (s = Library.formatFloat num ∨ s = ToString.toString (Library.toInt64 num))
  | _, _ => False

/-- Which of the two takes the literal as equal, if only one does: whether it is the hunt. -/
def splitByHunt : FieldValue → Bool
  | .int _ => true
  | .bool _ => false
  | .str s => 'e' ∈ s.toList

section
variable (hlib : Library.Exact)
include hlib

theorem literal_ofInt64 {n : ℤ} (hn : IsSmall n) (written : String) :
    (Literal.number written (Library.ofInt64 n)).literal = .int (Int64.ofInt n) := by
  have heq := (hlib.isWhole_ofInt64 n hn).eq n hn.isInt64
  rw [Literal.literal, hlib.toInt64_ofInt64 n hn, heq, decide_eq_true rfl, if_pos rfl]

variable {v : Literal} {want : ℤ} {cls : Classes} {raw : FieldValue}

theorem isWhole_asNumber (hv : v.Whole) (h : toInt64 v.literal = some want) :
    ∃ x, v.asNumber = some x ∧ Library.IsWhole x want := by
  cases v with
  | text s => exact hlib.isWhole_parseFloat s want h (hv want h)
  | number =>
    obtain ⟨n, hn, rfl⟩ := hv
    rw [literal_ofInt64 hlib hn, toInt64, Option.some.injEq,
      Int64.toInt_ofInt_of_le hn.isInt64.1 hn.isInt64.2] at h
    subst h
    exact ⟨_, rfl, hlib.isWhole_ofInt64 n hn⟩

theorem valueEquals_int (hv : v.Whole) (h : toInt64 v.literal = some want) {m : ℤ}
    (hm : IsInt64 m) : valueEquals (.int m) v = decide (m = want) := by
  obtain ⟨x, hx, hwhole⟩ := isWhole_asNumber hlib hv h
  rw [valueEquals, hx, Option.any_some, hwhole.eq m hm]

theorem split_int_iff (hv : v.Whole) {m : ℤ} (hm : IsInt64 m) :
    v.Split (.int m) ↔ valueEquals (.int m) v ≠ valuesEqual (.int m) v.literal := by
  have hsame : ∀ want, toInt64 v.literal = some want →
      valueEquals (.int m) v = valuesEqual (.int m) v.literal := by
    intro want hwant
    rw [valueEquals_int hlib hv hwant hm]
    show decide (m = want) = decide (toInt64 v.literal = some m)
    rw [decide_eq_decide, hwant, Option.some.injEq, eq_comm]
  cases v with
  | text s =>
    cases hint : Go.parseInt64 s with
    | some want =>
      simp [Literal.Split, hint, hsame want hint]
    | none =>
      have hrule : valuesEqual (.int m) (Literal.text s).literal = false := by
        simp [valuesEqual, Literal.literal, toInt64, hint]
      rw [hrule, Bool.ne_false_iff]
      simp [Literal.Split, hint, valueEquals, Literal.asNumber, Option.any_eq_true]
  | number written num =>
    obtain ⟨n, hn, rfl⟩ := hv
    have hwant := congrArg toInt64 (literal_ofInt64 hlib hn written)
    simp [Literal.Split, hsame _ hwant]

omit hlib in
theorem split_bool_iff (hv : v.WellFormed cls) (b : Bool)
    (hwhole : ∀ written num, v = .number written num → ∃ n, v.literal = .int n) :
    v.Split (.bool b) ↔ valueEquals (.bool b) v ≠ valuesEqual (.bool b) v.literal := by
  cases v with
  | text s =>
    show Go.parseBool s = some b ∧ s ≠ Go.formatBool b ↔
      decide (s = Go.formatBool b) ≠ decide (Go.parseBool s = some b)
    by_cases hs : s = Go.formatBool b
    · simp [hs, parseBool_formatBool]
    · simp [hs]
  | number =>
    obtain ⟨n, hn⟩ := hwhole _ _ rfl
    have hne := hv.1.ne_formatBool b
    simp [Literal.Split, valueEquals, valuesEqual, Literal.str, hne, hn, Detect.toBool]

theorem split_str_iff (hv : v.Whole) (s : String) :
    v.Split (.str s) ↔ valueEquals (.str s) v ≠ valuesEqual (.str s) v.literal := by
  cases v with
  | text t =>
    show False ↔ ¬decide (s = t) = decide (s = Detect.Value.sprint (.str t))
    rw [Detect.Value.sprint, decide_eq_decide, false_iff, not_not]
  | number written num =>
    obtain ⟨n, hn, rfl⟩ := hv
    have hrule : valuesEqual (.str s) (Literal.number written (Library.ofInt64 n)).literal =
        decide (s = ToString.toString n) := by
      rw [literal_ofInt64 hlib hn, valuesEqual, Detect.toString, Detect.Value.sprint,
        Int64.toInt_ofInt_of_le hn.isInt64.1 hn.isInt64.2]
    rw [hrule]
    show 10 ^ 6 ≤ |Library.toInt64 (Library.ofInt64 n)| ∧
        (s = Library.formatFloat (Library.ofInt64 n) ∨
          s = ToString.toString (Library.toInt64 (Library.ofInt64 n))) ↔
      ¬decide (s = Library.formatFloat (Library.ofInt64 n)) = decide (s = ToString.toString n)
    rw [hlib.toInt64_ofInt64 n hn, decide_eq_decide]
    by_cases hlong : 10 ^ 6 ≤ |n|
    · have hexp := hlib.formatFloat_long n hn hlong
      have hne : Library.formatFloat (Library.ofInt64 n) ≠ ToString.toString n := by
        intro heq
        rw [heq] at hexp
        exact not_mem_toString n hexp
      constructor
      · rintro ⟨-, rfl | rfl⟩ hiff
        · exact hne (hiff.mp rfl)
        · exact hne (hiff.mpr rfl).symm
      · intro hdiff
        refine ⟨hlong, ?_⟩
        by_contra hneither
        rw [not_or] at hneither
        exact hdiff (iff_of_false hneither.1 hneither.2)
    · -- short numbers print alike
      rw [hlib.formatFloat_short n (not_le.mp hlong)]
      exact iff_of_false (fun h => hlong h.1) (not_not.mpr Iff.rfl)

theorem split_iff (hv : v.Whole) (hwell : v.WellFormed cls) (hraw : Ranged (some raw)) :
    v.Split raw ↔ valueEquals raw v ≠ valuesEqual raw v.literal := by
  cases raw with
  | int m => exact split_int_iff hlib hv (hraw m rfl)
  | bool b =>
    refine split_bool_iff hwell b ?_
    rintro written num rfl
    obtain ⟨n, hn, rfl⟩ := hv
    exact ⟨_, literal_ofInt64 hlib hn written⟩
  | str s => exact split_str_iff hlib hv s

/-- If exactly one of the two takes a literal as equal to the field, the field tells which: a
string with an exponent is what the hunt prints. -/
theorem valueEquals_of_split (hv : v.Whole) (h : v.Split raw) :
    valueEquals raw v = splitByHunt raw := by
  cases raw with
  | int =>
    cases v with
    | text s =>
      obtain ⟨-, x, hx, heq⟩ := h
      show (Library.parseFloat s).any _ = true
      rw [hx, Option.any_some, heq]
    | number => exact h.elim
  | bool =>
    cases v with
    | text => exact decide_eq_false h.2
    | number => exact h.elim
  | str s =>
    cases v with
    | text => exact h.elim
    | number =>
      obtain ⟨n, hn, rfl⟩ := hv
      obtain ⟨hlong, hs⟩ := h
      rw [hlib.toInt64_ofInt64 n hn] at hlong hs
      have hexp := hlib.formatFloat_long n hn hlong
      show decide (s = Library.formatFloat (Library.ofInt64 n)) = decide ('e' ∈ s.toList)
      rw [decide_eq_decide]
      rcases hs with rfl | rfl
      · exact iff_of_true rfl hexp
      · refine iff_of_false (fun heq => ?_) (not_mem_toString n)
        rw [← heq] at hexp
        exact not_mem_toString n hexp

end

/-! ## Lists of literals -/

omit [Library] in
theorem any_eq_any_iff {α : Type} {f g : α → Bool} {l : List α}
    (h : ∀ a ∈ l, ∀ b ∈ l, f a ≠ g a → f b ≠ g b → f a = f b) :
    l.any f = l.any g ↔ (∃ a ∈ l, f a = g a ∧ f a = true) ∨ ∀ a ∈ l, f a = g a := by
  constructor
  · intro hany
    by_contra hnone
    push Not at hnone
    obtain ⟨hboth, a, ha, hdiff⟩ := hnone
    have hcompany : ∀ b ∈ l, f b = true ∨ g b = true → f b ≠ g b := by
      rintro b hb (hf | hg) heq
      · exact hboth b hb heq hf
      · exact hboth b hb heq (heq.trans hg)
    cases hf : f a with
    | true =>
      obtain ⟨b, hb, hgb⟩ := any_eq_true.mp (hany ▸ any_eq_true.mpr ⟨a, ha, hf⟩)
      have hdiff' := hcompany b hb (.inr hgb)
      rw [← h a ha b hb hdiff hdiff', hf, hgb] at hdiff'
      exact hdiff' rfl
    | false =>
      have hga : g a = true := by
        rw [hf] at hdiff
        exact Bool.eq_true_of_not_eq_false hdiff.symm
      obtain ⟨b, hb, hfb⟩ := any_eq_true.mp (hany ▸ any_eq_true.mpr ⟨a, ha, hga⟩)
      have hdiff' := hcompany b hb (.inl hfb)
      rw [← h a ha b hb hdiff hdiff', hf] at hfb
      cases hfb
  · rintro (⟨a, ha, heq, hf⟩ | hall)
    · rw [any_eq_true.mpr ⟨a, ha, hf⟩, any_eq_true.mpr ⟨a, ha, heq ▸ hf⟩]
    · rw [Bool.eq_iff_iff, any_eq_true, any_eq_true]
      exact exists_congr fun a => and_congr_right fun ha => by rw [hall a ha]

/-! ## Operators -/

def Op.isText (op : Op) : Bool := op ∈ [.contains, .startswith, .endswith, .regex]

def Op.isOrder (op : Op) : Bool := op ∈ [.gt, .lt, .ge, .le]

/-- The test of a text operator with the given argument. -/
def Op.test (op : Op) (arg s : String) : Bool :=
  match op with
  | .contains => Go.contains s arg
  | .startswith => Go.startsWith s arg
  | .endswith => Go.hasSuffix s arg
  | .regex =>
    match Library.regexp arg with
    | .ok test => test s
    | .error _ => false
  | _ => false

/-- The order an operator stands for, on integers. -/
def Op.order (op : Op) (n want : ℤ) : Bool :=
  match op with
  | .gt => n > want
  | .lt => n < want
  | .ge => n ≥ want
  | .le => n ≤ want
  | _ => false

variable {field : String} {c : Comparison} {op : Op} {value : Detect.Value} {p : Predicate}

theorem compileLeaf_ruleOps (hknown : Model.knownField field = true) (op : Op)
    (value : Detect.Value) :
    compileLeaf field (ruleOps op) value =
      match op with
      | .eq => .ok (equality field value false)
      | .ne => .ok (equality field value true)
      | .isIn => Detect.membership field value false
      | .contains | .startswith | .endswith => Detect.stringMatch field (ruleOps op) value
      | .regex => Detect.regexMatch field value
      | .gt | .lt | .ge | .le => Detect.numberCompare field (ruleOps op) value := by
  have hne : field ≠ "" := by
    rintro rfl
    exact absurd hknown (by decide)
  cases op <;> simp [compileLeaf, hne, hknown, ruleOps]

theorem eval_text (hop : c.op.isText = true) (e : Event) :
    c.eval e = (e.field c.field).any fun raw => c.op.test c.value.str (toString raw) := by
  obtain ⟨field, op, value, values⟩ := c
  unfold Comparison.eval
  cases e.field field with
  | none => rfl
  | some => cases op <;> first | rfl | cases hop

theorem leaf_text (hknown : Model.knownField field = true) (hop : op.isText = true)
    (h : compileLeaf field (ruleOps op) value = .ok p) :
    p = Detect.onString field (op.test (Detect.toString value)) := by
  rw [compileLeaf_ruleOps hknown] at h
  cases op with
  | contains | startswith | endswith =>
    simp only [Detect.stringMatch, ruleOps, Except.ok.injEq] at h
    exact h.symm
  | regex =>
    simp only [Detect.regexMatch] at h
    split at h
    · cases h
    · next test htest =>
      cases h
      have hsame : Op.regex.test (Detect.toString value) = test := by
        funext s
        simp only [Op.test, htest]
      rw [hsame]
  | _ => cases hop

theorem leaf_order (hknown : Model.knownField field = true) (hop : op.isOrder = true)
    (h : compileLeaf field (ruleOps op) value = .ok p) :
    ∃ want, toInt64 value = some want ∧ ∀ e, p e =
      match e.field field with
      | some (.int n) => op.order n want
      | _ => false := by
  have hcompare : Detect.numberCompare field (ruleOps op) value = .ok p := by
    rw [compileLeaf_ruleOps hknown] at h
    cases op <;> first | exact h | cases hop
  unfold Detect.numberCompare at hcompare
  split at hcompare
  · cases hcompare
  · next want hwant =>
    cases hcompare
    refine ⟨want, hwant, fun e => ?_⟩
    dsimp only
    cases e.field field with
    | none => rfl
    | some raw =>
      cases raw with
      | int => cases op <;> first | rfl | cases hop
      | _ => rfl

theorem numericCompare_int (hop : op.isOrder = true) {v : Literal} {x : Library.Float64}
    (hx : v.asNumber = some x) {want : ℤ} (hwhole : Library.IsWhole x want) {n : ℤ}
    (hn : IsInt64 n) : numericCompare (.int n) op v = op.order n want := by
  simp only [numericCompare, toNumber, hx]
  cases op with
  | gt => exact hwhole.gt n hn
  | lt => exact hwhole.lt n hn
  | ge => exact hwhole.ge n hn
  | le => exact hwhole.le n hn
  | _ => cases hop

/-! ## Comparisons -/

/-- A text operator gives the same for the hunt and the rule: to the rule a field that is no
string has no text, and a number is its decimal text. -/
def Op.TestsAlike (op : Op) (v : Literal) (raw : FieldValue) : Prop :=
  match raw, v with
  | .str _, .text _ => True
  | .str s, .number written num =>
      op.test written s = op.test (ToString.toString (Library.toInt64 num)) s
  | _, _ => op.test v.str (toString raw) = false

/-- The hunt and the rule read the comparison in the same way on the event. -/
def Comparison.ReadAlike (c : Comparison) (e : Event) : Prop :=
  match e.field c.field with
  | none => c.op ≠ .ne
  | some raw =>
    match c.op with
    | .eq | .ne => ¬c.value.Split raw
    | .isIn => (∃ v ∈ c.values, ¬v.Split raw ∧ valueEquals raw v = true) ∨
        ∀ v ∈ c.values, ¬v.Split raw
    | .contains | .startswith | .endswith | .regex => c.op.TestsAlike c.value raw
    | .gt | .lt | .ge | .le => ∀ s, raw = .str s → numericCompare raw c.op c.value = false

theorem leafValue_of_ne (h : c.op ≠ .isIn) : c.leafValue = c.value.literal := by
  obtain ⟨field, op, value, values⟩ := c
  cases op <;> first | rfl | exact absurd rfl h

section
variable {cls : Classes} {c : Comparison} (hc : c.WellFormed cls) {p : Predicate}
  (hp : compileLeaf c.field (ruleOps c.op) c.leafValue = .ok p) {e : Event}
include hc hp

theorem eval_eq_leaf_equality_iff (hop : c.op = .eq ∨ c.op = .ne) :
    c.eval e = p e ↔
      match e.field c.field with
      | none => c.op ≠ .ne
      | some raw => valueEquals raw c.value = valuesEqual raw c.value.literal := by
  rw [leafValue_of_ne (by rcases hop with h | h <;> simp [h]), compileLeaf_ruleOps hc.known] at hp
  unfold Comparison.eval
  rcases hop with hop | hop <;> rw [hop] at hp ⊢ <;> cases hp <;> unfold equality
  all_goals
    cases e.field c.field with
    | none | some => simp

theorem eval_eq_leaf_in_iff (hop : c.op = .isIn) :
    c.eval e = p e ↔ ∀ raw, e.field c.field = some raw →
      c.values.any (valueEquals raw) = c.values.any fun v => valuesEqual raw v.literal := by
  have hvalue : c.leafValue = .list (c.values.map Literal.literal) := by
    rw [Comparison.leafValue, hop]
  rw [hvalue, compileLeaf_ruleOps hc.known, hop] at hp
  cases hp
  have hfound : ∀ b : Bool, (if b = true then !false else false) = b := by decide
  unfold Comparison.eval
  rw [hop]
  dsimp only
  cases e.field c.field with
  | none => simp
  | some =>
    simp only [Option.some.injEq, forall_eq', hfound, any_map, Function.comp_def]

theorem eval_eq_leaf_text_iff (hlib : Library.Exact) (hop : c.op.isText = true)
    (hwhole : c.value.Whole) :
    c.eval e = p e ↔ ∀ raw, e.field c.field = some raw → c.op.TestsAlike c.value raw := by
  have hne : c.op ≠ .isIn := by
    intro h
    rw [h] at hop
    cases hop
  rw [leafValue_of_ne hne] at hp
  rw [eval_text hop, leaf_text hc.known hop hp, Detect.onString, Detect.stringField]
  cases e.field c.field with
  | none => simp
  | some raw =>
    simp only [Option.any_some, Option.some.injEq, forall_eq']
    cases raw with
    | int | bool => cases c.value <;> rfl
    | str =>
      cases hv : c.value with
      | text => exact iff_of_true rfl trivial
      | number =>
        rw [hv] at hwhole
        obtain ⟨n, hn, rfl⟩ := hwhole
        rw [literal_ofInt64 hlib hn, Op.TestsAlike, hlib.toInt64_ofInt64 n hn, Detect.toString,
          Detect.Value.sprint, Int64.toInt_ofInt_of_le hn.isInt64.1 hn.isInt64.2]
        rfl

theorem eval_eq_leaf_order_iff (hlib : Library.Exact) (hop : c.op.isOrder = true)
    (hwhole : c.value.Whole) :
    c.eval e = p e ↔ ∀ s, e.field c.field = some (.str s) →
      numericCompare (.str s) c.op c.value = false := by
  have hne : c.op ≠ .isIn := by
    intro h
    rw [h] at hop
    cases hop
  rw [leafValue_of_ne hne] at hp
  obtain ⟨want, hwant, hpe⟩ := leaf_order hc.known hop hp
  obtain ⟨x, hx, hxwhole⟩ := isWhole_asNumber hlib hwhole hwant
  have heval : c.eval e = (e.field c.field).any fun raw => numericCompare raw c.op c.value := by
    unfold Comparison.eval
    cases e.field c.field with
    | none => rfl
    | some => cases hc : c.op <;> first | rfl | (rw [hc] at hop; cases hop)
  rw [heval, hpe]
  cases hfield : e.field c.field with
  | none => simp
  | some raw =>
    rw [Option.any_some]
    cases raw with
    | int =>
      rw [numericCompare_int hop hx hxwhole (isInt64_of_field hfield)]
      exact iff_of_true rfl (by simp)
    | bool => exact iff_of_true rfl (by simp)
    | str => simp

end

/-- On every event, a comparison the parser produced and the predicate of the rule leaf it
becomes give the same answer exactly when they read the field and the literals alike. -/
theorem eval_eq_leaf_iff (hlib : Library.Exact) {cls : Classes} {source : String} {q : Query}
    (hq : compile cls source = .ok q) {c : Comparison} (hc : c ∈ q.comparisons)
    (hwhole : ∀ v ∈ c.value :: c.values, v.Whole) {p : Predicate}
    (hp : compileLeaf c.field (ruleOps c.op) c.leafValue = .ok p) (e : Event) :
    c.eval e = p e ↔ c.ReadAlike e := by
  have hwell := wellFormed_of_compile hq c hc
  have hvalue : c.value.Whole := hwhole _ mem_cons_self
  have hsplit : ∀ raw, e.field c.field = some raw → ∀ v ∈ c.value :: c.values,
      (¬v.Split raw ↔ valueEquals raw v = valuesEqual raw v.literal) := by
    intro raw hraw v hv
    have hranged : Ranged (some raw) := fun n hn => isInt64_of_field (hraw.trans hn)
    rw [split_iff hlib (hwhole v hv) (hwell.literals v hv) hranged, ne_eq, not_not]
  unfold Comparison.ReadAlike
  cases hop : c.op with
  | eq | ne =>
    rw [eval_eq_leaf_equality_iff hwell hp (by simp [hop]), hop]
    cases hfield : e.field c.field with
    | none => rfl
    | some raw => exact (hsplit raw hfield _ mem_cons_self).symm
  | isIn =>
    rw [eval_eq_leaf_in_iff hwell hp hop]
    cases hfield : e.field c.field with
    | none => simp
    | some raw =>
      have hvalues := fun v hv => hsplit raw hfield v (mem_cons_of_mem _ hv)
      have hside : ∀ v ∈ c.values, ∀ w ∈ c.values, valueEquals raw v ≠ valuesEqual raw v.literal →
          valueEquals raw w ≠ valuesEqual raw w.literal → valueEquals raw v = valueEquals raw w := by
        intro v hv w hw hdv hdw
        have hsv := not_not.mp (mt (hvalues v hv).mp hdv)
        have hsw := not_not.mp (mt (hvalues w hw).mp hdw)
        rw [valueEquals_of_split hlib (hwhole v (mem_cons_of_mem _ hv)) hsv,
          valueEquals_of_split hlib (hwhole w (mem_cons_of_mem _ hw)) hsw]
      simp only [Option.some.injEq, forall_eq', any_eq_any_iff hside]
      refine or_congr ?_ ?_
      · exact exists_congr fun v => and_congr_right fun hv => and_congr_left' (hvalues v hv).symm
      · exact forall₂_congr fun v hv => (hvalues v hv).symm
  | contains | startswith | endswith | regex =>
    rw [eval_eq_leaf_text_iff hwell hp hlib (by rw [hop]; rfl) hvalue, hop]
    cases e.field c.field <;> simp
  | gt | lt | ge | le =>
    rw [eval_eq_leaf_order_iff hwell hp hlib (by rw [hop]; rfl) hvalue, hop]
    cases e.field c.field with
    | none => simp
    | some =>
      simp only [Option.some.injEq]
      exact forall_congr' fun s => forall_congr' fun hs => by rw [hs]

end

/-! ## Runs -/

/-- The comparison of `any where container.id != "c1"`. -/
def otherContainer : @Comparison .whole :=
  letI : Library := .whole
  { field := "container.id", op := .ne, value := .text "c1" }

theorem compile_otherContainer :
    letI : Library := .whole
    compile .ascii "any where container.id != \"c1\"" =
      .ok (.simple { cls := { all := true }, filter := some (.cmp otherContainer) }) := by
  have hlex : lex .ascii "any where container.id != \"c1\"".toList =
      .ok [⟨.ident, "any"⟩, ⟨.ident, "where"⟩, ⟨.ident, "container.id"⟩, ⟨.op, "!="⟩,
        ⟨.string, "c1"⟩, .eof] := by
    decide +kernel
  unfold compile
  rw [hlex]
  rfl

theorem otherContainer_whole :
    letI : Library := .whole
    ∀ v ∈ otherContainer.value :: otherContainer.values, v.Whole := by
  let _ : Library := .whole
  refine forall_mem_singleton.mpr fun n hn => ?_
  cases (by decide : Go.parseInt64 "c1" = none).symm.trans hn

/-- On an event outside containers the hunt does not match and the rule fires. -/
theorem absent_field_splits_hunt_and_rule :
    letI : Library := .whole
    ∃ q c p, compile .ascii "any where container.id != \"c1\"" = .ok q ∧ c ∈ q.comparisons ∧
      (∀ v ∈ c.value :: c.values, v.Whole) ∧
      compileLeaf c.field (ruleOps c.op) c.leafValue = .ok p ∧
      c.eval { action := "exec" } = false ∧ p { action := "exec" } = true := by
  let _ : Library := .whole
  exact ⟨_, otherContainer, _, compile_otherContainer, mem_singleton_self _,
    otherContainer_whole, rfl, rfl, rfl⟩

/-- On an event of another container both do. -/
theorem other_container_found_and_reported :
    letI : Library := .whole
    ∃ p, compileLeaf otherContainer.field (ruleOps otherContainer.op) otherContainer.leafValue =
        .ok p ∧
      otherContainer.eval { action := "exec", container := { id := "c2" } } =
        p { action := "exec", container := { id := "c2" } } := by
  let _ : Library := .whole
  refine ⟨_, rfl, (eval_eq_leaf_iff Go.Library.whole_exact compile_otherContainer
    (mem_singleton_self _) otherContainer_whole rfl _).mpr ?_⟩
  exact not_false

end ArgusEdr.Hunt
