import ArgusEdr.Go.Strconv

/-!
# Whole numbers as `float64`

`Library.Exact` is what the program relies on in floating-point numbers that are whole and less
than 2^53 in size: they compare with every `int64` as integers do, they convert back, decimal
texts are read as them, and `%g` prints them in decimal up to six digits and with an exponent
beyond. `Library.whole` is a library for concrete runs that does so.
-/

namespace ArgusEdr.Go

open Library (ofInt64)

def IsInt64 (n : ℤ) : Prop := -2 ^ 63 ≤ n ∧ n < 2 ^ 63

/-- The whole numbers of a size that `float64` has all of. -/
def IsSmall (n : ℤ) : Prop := |n| < 2 ^ 53

theorem IsSmall.isInt64 {n : ℤ} (h : IsSmall n) : IsInt64 n := by
  have hn := abs_lt.mp h
  constructor
  · linarith [hn.1]
  · linarith [hn.2]

section
variable [Library]

/-- The number compares with every `int64` as the integer `n` does. -/
structure Library.IsWhole (x : Library.Float64) (n : ℤ) : Prop where
  eq : ∀ m, IsInt64 m → Library.eq (ofInt64 m) x = decide (m = n)
  lt : ∀ m, IsInt64 m → Library.lt (ofInt64 m) x = decide (m < n)
  gt : ∀ m, IsInt64 m → Library.lt x (ofInt64 m) = decide (n < m)
  le : ∀ m, IsInt64 m → Library.le (ofInt64 m) x = decide (m ≤ n)
  ge : ∀ m, IsInt64 m → Library.le x (ofInt64 m) = decide (n ≤ m)

/-- What holds of whole numbers below 2^53. A text may be read as the negative zero, which
compares as zero does. -/
structure Library.Exact : Prop where
  isWhole_ofInt64 : ∀ n, IsSmall n → Library.IsWhole (ofInt64 n) n
  toInt64_ofInt64 : ∀ n, IsSmall n → Library.toInt64 (ofInt64 n) = n
  isWhole_parseFloat : ∀ s n, parseInt64 s = some n → IsSmall n →
    ∃ x, Library.parseFloat s = some x ∧ Library.IsWhole x n
  formatFloat_short : ∀ n, |n| < 10 ^ 6 → Library.formatFloat (ofInt64 n) = toString n
  formatFloat_long : ∀ n, IsSmall n → 10 ^ 6 ≤ |n| →
    'e' ∈ (Library.formatFloat (ofInt64 n)).toList

end

/-! ## A library of whole numbers -/

/-- The `%e` form with the fewest digits. -/
def exponential (n : ℕ) : List Char :=
  let digits := Nat.toDigits 10 n
  let mantissa := (digits.reverse.dropWhile (· == '0')).reverse
  let exponent := Nat.toDigits 10 (digits.length - 1)
  mantissa.take 1 ++ (if mantissa.length ≤ 1 then [] else '.' :: mantissa.drop 1) ++ ['e', '+'] ++
    List.replicate (2 - exponent.length) '0' ++ exponent

/-- `strconv.FormatFloat(float64(n), 'g', -1, 64)`. -/
def formatWhole (n : ℤ) : String :=
  if |n| < 10 ^ 6 then toString n
  else String.ofList ((if n < 0 then ['-'] else []) ++ exponential n.natAbs)

example : formatWhole 443 = "443" ∧ formatWhole 1000000 = "1e+06" ∧
    formatWhole (-1234567) = "-1.234567e+06" := by
  decide +kernel

/-- The plain library, with whole numbers printed as `%g` prints them. -/
@[reducible] def Library.whole : Library :=
  { Library.plain with formatFloat := formatWhole, sprintFloat := formatWhole }

theorem Library.whole_exact : @Library.Exact .whole := by
  let _ : Library := .whole
  have hwhole : ∀ n : ℤ, @Library.IsWhole .whole n n := fun n =>
    ⟨fun _ _ => rfl, fun _ _ => rfl, fun _ _ => rfl, fun _ _ => rfl, fun _ _ => rfl⟩
  refine ⟨fun n _ => hwhole n, fun _ _ => rfl, fun s n hs _ => ⟨n, hs, hwhole n⟩,
    fun n hn => if_pos hn, fun n _ hn => ?_⟩
  show 'e' ∈ (formatWhole n).toList
  rw [formatWhole, if_neg (not_lt.mpr hn)]
  simp [exponential]

end ArgusEdr.Go
