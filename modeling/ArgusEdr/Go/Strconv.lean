import ArgusEdr.Go.Text

/-!
# Numbers and durations in texts (`strconv`, `time`)

`strconv.Atoi` and `time.ParseDuration`, with the errors they return. A text of decimal digits
is read as the number it is the expansion of: `parseUint_digits` and `parseDuration_digits`.
-/

namespace ArgusEdr.Go

open List

/-! ## Integers -/

/-- A text without its leading sign. -/
def unsigned (s : String) : String :=
  match s.toList with
  | '-' :: digits => String.ofList digits
  | '+' :: digits => String.ofList digits
  | _ => s

/-- Whether the digits of a text exceed `int64` before anything else is wrong with it. -/
def exceedsInt64 (s : String) : Bool :=
  match parseUint (unsigned s) 64 with
  | .ok _ => true
  | .error e => e = .errorf "strconv.ParseUint: parsing %q: value out of range" [unsigned s]

/-- `strconv.Atoi`, where an `int` has 64 bits. -/
def atoi (s : String) : Except Error ℤ :=
  match parseInt64 s with
  | some n => .ok n
  | none =>
    if exceedsInt64 s then .error (.errorf "strconv.Atoi: parsing %q: value out of range" [s])
    else .error (.errorf "strconv.Atoi: parsing %q: invalid syntax" [s])

/-- The error of `strconv.ParseFloat` on a text of digits and dots it cannot convert. -/
def parseFloatError (s : String) : Error :=
  if (s.toList.all fun c => c.isDigit || c == '.') ∧ s.toList.count '.' ≤ 1 then
    .errorf "strconv.ParseFloat: parsing %q: value out of range" [s]
  else .errorf "strconv.ParseFloat: parsing %q: invalid syntax" [s]

/-! ## Durations -/

def unitMap : List (String × ℕ) :=
  [("ns", 1), ("us", 1000), ("µs", 1000), ("μs", 1000), ("ms", 1000000), ("s", 1000000000),
   ("m", 60000000000), ("h", 3600000000000)]

/-- `leadingInt`: the number the text starts with, and the rest of the text. -/
def leadingInt : ℕ → List Char → Option (ℕ × List Char)
  | x, [] => some (x, [])
  | x, c :: cs =>
    match digitVal c with
    | none => some (x, c :: cs)
    | some d =>
      if 2 ^ 63 / 10 < x then none
      else if 2 ^ 63 < 10 * x + d then none
      else leadingInt (10 * x + d) cs

/-- `leadingFraction`: the digits after the point as a number, and the power of ten it is to be
divided by. Digits that do not fit any more are skipped. -/
def leadingFraction : (x : ℕ) → (scale : Float) → (overflow : Bool) → List Char →
    ℕ × Float × List Char
  | x, scale, _, [] => (x, scale, [])
  | x, scale, overflow, c :: cs =>
    match digitVal c with
    | none => (x, scale, c :: cs)
    | some d =>
      if overflow ∨ (2 ^ 63 - 1) / 10 < x ∨ 2 ^ 63 < 10 * x + d then
        leadingFraction x scale true cs
      else leadingFraction (10 * x + d) (scale * 10) false cs

/-- A character no unit has. -/
def endsUnit (c : Char) : Bool := c == '.' || (digitVal c).isSome

/-- What a number before and after the point amounts to in a unit, in nanoseconds. -/
def unitValue (v f : ℕ) (scale : Float) (unit : ℕ) : Option ℕ :=
  if 2 ^ 63 / unit < v then none
  else if f = 0 then some (v * unit)
  else
    let total := v * unit + (Float.ofNat f * (Float.ofNat unit / scale)).toUInt64.toNat
    if 2 ^ 63 < total then none else some total

/-- The number a text starts with, before and after the point. There is none if it has no digit
or does not fit. -/
def leadingNumber (s : List Char) : Option (ℕ × ℕ × Float × List Char) :=
  match leadingInt 0 s with
  | none => none
  | some (v, '.' :: fraction) =>
    let (f, scale, rest) := leadingFraction 0 1 false fraction
    if s.length = fraction.length + 1 ∧ rest.length = fraction.length then none
    else some (v, f, scale, rest)
  | some (v, rest) => if rest.length = s.length then none else some (v, 0, 1, rest)

/-- One round of `time.ParseDuration`: a number and its unit, as nanoseconds. -/
def durationRound (orig : String) (s : List Char) : Except Error (ℕ × List Char) :=
  if ¬s.head?.any endsUnit then .error (.errorf "time: invalid duration %q" [orig])
  else
    match leadingNumber s with
    | none => .error (.errorf "time: invalid duration %q" [orig])
    | some (v, f, scale, rest) =>
      let unit := String.ofList (rest.takeWhile fun c => !endsUnit c)
      if unit = "" then .error (.errorf "time: missing unit in duration %q" [orig])
      else
        match unitMap.lookup unit with
        | none => .error (.errorf "time: unknown unit %q in duration %q" [unit, orig])
        | some size =>
          match unitValue v f scale size with
          | none => .error (.errorf "time: invalid duration %q" [orig])
          | some value => .ok (value, rest.dropWhile fun c => !endsUnit c)

/-- The loop of `time.ParseDuration`, with `d` nanoseconds so far. A round reads a character at
least. -/
def durationRounds (orig : String) : ℕ → ℕ → List Char → Except Error ℕ
  | _, d, [] => .ok d
  | 0, d, _ :: _ => .ok d
  | rounds + 1, d, c :: cs =>
    match durationRound orig (c :: cs) with
    | .error e => .error e
    | .ok (value, rest) =>
      if 2 ^ 63 < d + value then .error (.errorf "time: invalid duration %q" [orig])
      else durationRounds orig rounds (d + value) rest

def parseDuration (s : String) : Except Error ℤ :=
  let neg := startsWith s "-"
  let digits := unsigned s
  if digits = "0" then .ok 0
  else if digits = "" then .error (.errorf "time: invalid duration %q" [s])
  else
    match durationRounds s digits.toList.length 0 digits.toList with
    | .error e => .error e
    | .ok d =>
      if neg then .ok (-(d : ℤ))
      else if 2 ^ 63 - 1 < d then .error (.errorf "time: invalid duration %q" [s])
      else .ok d

example : (parseDuration "1h30m").toOption = some 5400000000000 := by decide +kernel

/-! ## Texts of digits -/

/-- A text of decimal digits, one at least, that is the number `n`. -/
def Digits (ds : List Char) (n : ℕ) : Prop :=
  ds ≠ [] ∧ (∀ c ∈ ds, c.isDigit = true) ∧ Nat.ofDigitChars 10 ds 0 = n

theorem digits_toDigits (n : ℕ) : Digits (Nat.toDigits 10 n) n :=
  ⟨Nat.toDigits_ne_nil, fun _ hc => Nat.isDigit_of_mem_toDigits (by decide) (by decide) hc,
    Nat.ofDigitChars_ten_toDigits⟩

theorem toList_formatUint (n : ℕ) : (formatUint n).toList = Nat.toDigits 10 n := by
  rw [formatUint, Nat.toString_eq_repr, Nat.repr, String.toList_ofList]

theorem notMem_repr_int {c : Char} (hdigit : c.isDigit = false) (hsign : c ≠ '-') (n : ℤ) :
    c ∉ n.repr.toList := by
  have hnat : ∀ m : ℕ, c ∉ m.repr.toList := by
    intro m hmem
    rw [Nat.repr, String.toList_ofList] at hmem
    rw [(digits_toDigits m).2.1 _ hmem] at hdigit
    cases hdigit
  rw [Int.repr_eq_if]
  split_ifs
  · exact hnat _
  · have hminus : "-".toList = ['-'] := rfl
    rw [String.toList_append, hminus, singleton_append, mem_cons, not_or]
    exact ⟨hsign, hnat _⟩

theorem formatUint_injective : Function.Injective formatUint := by
  intro m n h
  rw [← (digits_toDigits m).2.2, ← toList_formatUint, h, toList_formatUint, (digits_toDigits n).2.2]

theorem digitVal_of_isDigit {c : Char} (h : c.isDigit = true) :
    digitVal c = some (c.toNat - '0'.toNat) := by
  unfold digitVal
  rw [if_pos]
  simpa [Char.isDigit, Char.le_def] using h

theorem le_ofDigitChars (ds : List Char) (acc : ℕ) : acc ≤ Nat.ofDigitChars 10 ds acc := by
  induction ds generalizing acc with
  | nil => simp
  | cons c ds ih =>
    rw [Nat.ofDigitChars_cons]
    have := ih (10 * acc + (c.toNat - '0'.toNat))
    omega

variable {s : String} {limit acc n bits : ℕ} {ds : List Char}

theorem parseDigits_digits (hds : ∀ c ∈ ds, c.isDigit = true)
    (h : Nat.ofDigitChars 10 ds acc < limit) :
    parseDigits s limit acc ds = .ok (Nat.ofDigitChars 10 ds acc) := by
  induction ds generalizing acc with
  | nil => simp [parseDigits]
  | cons c ds ih =>
    rw [Nat.ofDigitChars_cons] at h ⊢
    have hle := le_ofDigitChars ds (10 * acc + (c.toNat - '0'.toNat))
    simp only [parseDigits, digitVal_of_isDigit (hds c mem_cons_self)]
    rw [if_neg (by omega)]
    exact ih (fun d hd => hds d (mem_cons_of_mem c hd)) h

theorem parseUint_digits (h : Digits ds n) (hn : n < 2 ^ bits) :
    parseUint (String.ofList ds) bits = .ok n := by
  obtain ⟨hne, hds, rfl⟩ := h
  unfold parseUint
  rw [if_neg (by simpa using hne), String.toList_ofList]
  exact parseDigits_digits hds hn

theorem parseDigits_lt {cs : List Char} (hacc : acc < limit)
    (h : parseDigits s limit acc cs = .ok n) : n < limit := by
  induction cs generalizing acc with
  | nil =>
    cases h
    exact hacc
  | cons c cs ih =>
    rw [parseDigits] at h
    split at h
    · cases h
    · split at h
      · cases h
      · next hlt => exact ih (not_le.mp hlt) h

theorem parseUint_lt (h : parseUint s bits = .ok n) : n < 2 ^ bits := by
  unfold parseUint at h
  split at h
  · cases h
  · exact parseDigits_lt (Nat.two_pow_pos bits) h

theorem unsigned_digits (h : Digits ds n) (tail : List Char) :
    unsigned (String.ofList (ds ++ tail)) = String.ofList (ds ++ tail) := by
  obtain ⟨hne, hds, -⟩ := h
  cases ds with
  | nil => exact absurd rfl hne
  | cons c ds =>
    have hc := hds c mem_cons_self
    unfold unsigned
    rw [String.toList_ofList]
    split
    · next heq =>
      cases heq
      exact absurd hc (by decide)
    · next heq =>
      cases heq
      exact absurd hc (by decide)
    · rfl

theorem ofDigitChars_of_parseDigits (hds : ∀ c ∈ ds, c.isDigit = true)
    (h : parseDigits s limit acc ds = .ok n) : Nat.ofDigitChars 10 ds acc = n := by
  induction ds generalizing acc with
  | nil => simpa [parseDigits] using h
  | cons c ds ih =>
    obtain ⟨hc, hds⟩ := forall_mem_cons.mp hds
    simp only [parseDigits, digitVal_of_isDigit hc] at h
    split at h
    · cases h
    · rw [Nat.ofDigitChars_cons]
      exact ih hds h

theorem parseInt64_digits (h : Digits ds n) :
    parseInt64 (String.ofList ds) = if n < 2 ^ 63 then some (n : ℤ) else none := by
  obtain ⟨hne, hds, hvalue⟩ := id h
  have hunsigned : parseInt64 (String.ofList ds) =
      match parseUint (String.ofList ds) 64 with
      | .ok n => if n < 2 ^ 63 then some (n : ℤ) else none
      | .error _ => none := by
    cases ds with
    | nil => exact absurd rfl hne
    | cons c ds =>
      have hc := hds c mem_cons_self
      unfold parseInt64
      rw [String.toList_ofList]
      split
      · next heq =>
        cases heq
        exact absurd hc (by decide)
      · next heq =>
        cases heq
        exact absurd hc (by decide)
      · rfl
  rw [hunsigned]
  cases hparse : parseUint (String.ofList ds) 64 with
  | ok m =>
    have hm : n = m := by
      rw [parseUint, if_neg (by simpa using hne), String.toList_ofList] at hparse
      rw [← hvalue, ofDigitChars_of_parseDigits hds hparse]
    rw [hm]
  | error =>
    have hn : ¬n < 2 ^ 63 := by
      intro hn
      rw [parseUint_digits h (hn.trans (by norm_num))] at hparse
      cases hparse
    rw [if_neg hn]

theorem atoi_digits (h : Digits ds n) (hn : n < 2 ^ 63) :
    atoi (String.ofList ds) = .ok (n : ℤ) := by
  rw [atoi, parseInt64_digits h, if_pos hn]

theorem exists_atoi_error (h : Digits ds n) (hn : 2 ^ 63 ≤ n) :
    ∃ e, atoi (String.ofList ds) = .error e := by
  rw [atoi, parseInt64_digits h, if_neg (not_lt.mpr hn)]
  dsimp only
  split <;> exact ⟨_, rfl⟩

theorem leadingInt_digits {tail : List Char} (hds : ∀ c ∈ ds, c.isDigit = true)
    (htail : ∀ c ∈ tail.head?, digitVal c = none) {x : ℕ} (hx : x ≤ 2 ^ 63) :
    leadingInt x (ds ++ tail) =
      if Nat.ofDigitChars 10 ds x ≤ 2 ^ 63 then some (Nat.ofDigitChars 10 ds x, tail)
      else none := by
  induction ds generalizing x with
  | nil =>
    rw [Nat.ofDigitChars_nil, if_pos hx]
    cases tail with
    | nil => simp [leadingInt]
    | cons c tail => simp [leadingInt, htail c rfl]
  | cons c ds ih =>
    obtain ⟨hc, hds⟩ := forall_mem_cons.mp hds
    rw [Nat.ofDigitChars_cons]
    have hle := le_ofDigitChars ds (10 * x + (c.toNat - '0'.toNat))
    simp only [cons_append, leadingInt, digitVal_of_isDigit hc]
    by_cases hfits : 10 * x + (c.toNat - '0'.toNat) ≤ 2 ^ 63
    · rw [if_neg (by omega), if_neg (by omega)]
      exact ih hds hfits
    · rw [if_neg (by omega : ¬Nat.ofDigitChars 10 ds _ ≤ 2 ^ 63)]
      split
      · rfl
      · rw [if_pos (by omega)]

/-- The units a window is written in, in nanoseconds. -/
def wholeUnits : List (Char × ℕ) := [('s', 1000000000), ('m', 60000000000), ('h', 3600000000000)]

theorem lookup_wholeUnits {unit : Char} {size : ℕ} (h : (unit, size) ∈ wholeUnits) :
    endsUnit unit = false ∧ unitMap.lookup (String.ofList [unit]) = some size ∧ 0 < size := by
  simp only [wholeUnits, mem_cons, Prod.mk.injEq, not_mem_nil, or_false] at h
  rcases h with ⟨rfl, rfl⟩ | ⟨rfl, rfl⟩ | ⟨rfl, rfl⟩ <;> decide

section
variable {ds : List Char} {n : ℕ} {unit : Char} (h : Digits ds n) (hunit : endsUnit unit = false)
include h hunit

theorem leadingNumber_digits :
    leadingNumber (ds ++ [unit]) = if n ≤ 2 ^ 63 then some (n, 0, 1, [unit]) else none := by
  obtain ⟨hne, hds, hvalue⟩ := h
  have hdot : unit ≠ '.' ∧ digitVal unit = none := by
    simpa [endsUnit] using hunit
  have hlead : leadingInt 0 (ds ++ [unit]) = if n ≤ 2 ^ 63 then some (n, [unit]) else none := by
    rw [leadingInt_digits hds (by simpa using hdot.2) (Nat.zero_le _), hvalue]
  have hlen : ¬[unit].length = (ds ++ [unit]).length := by
    have := length_pos_iff.mpr hne
    simp only [length_singleton, length_append]
    omega
  unfold leadingNumber
  rw [hlead]
  by_cases hn : n ≤ 2 ^ 63
  · rw [if_pos hn, if_pos hn]
    split
    · next heq => cases heq
    · next heq =>
      simp only [Option.some.injEq, Prod.mk.injEq, List.cons.injEq] at heq
      exact absurd heq.2.1 hdot.1
    · next heq =>
      cases heq
      exact if_neg hlen
  · rw [if_neg hn, if_neg hn]

theorem durationRound_digits (orig : String) :
    durationRound orig (ds ++ [unit]) =
      if n ≤ 2 ^ 63 then
        match unitMap.lookup (String.ofList [unit]) with
        | none => .error (.errorf "time: unknown unit %q in duration %q"
            [String.ofList [unit], orig])
        | some size =>
          if 2 ^ 63 / size < n then .error (.errorf "time: invalid duration %q" [orig])
          else .ok (n * size, [])
      else .error (.errorf "time: invalid duration %q" [orig]) := by
  have hhead : (ds ++ [unit]).head?.any endsUnit = true := by
    obtain ⟨hne, hds, -⟩ := h
    cases ds with
    | nil => exact absurd rfl hne
    | cons c ds => simp [endsUnit, digitVal_of_isDigit (hds c mem_cons_self)]
  have htake : [unit].takeWhile (fun c => !endsUnit c) = [unit] := by simp [hunit]
  have hdrop : [unit].dropWhile (fun c => !endsUnit c) = [] := by simp [hunit]
  have hname : String.ofList [unit] ≠ "" := by simp
  unfold durationRound
  rw [if_neg (not_not.mpr hhead), leadingNumber_digits h hunit]
  by_cases hn : n ≤ 2 ^ 63
  · simp only [if_pos hn, htake, hdrop, if_neg hname]
    cases unitMap.lookup (String.ofList [unit]) with
    | none => rfl
    | some size =>
      by_cases hsize : 2 ^ 63 / size < n
      · simp only [unitValue, if_pos hsize]
      · simp only [unitValue, if_neg hsize, if_true]
  · simp only [if_neg hn]

theorem parseDuration_eq_round :
    parseDuration (String.ofList (ds ++ [unit])) =
      match durationRound (String.ofList (ds ++ [unit])) (ds ++ [unit]) with
      | .error e => .error e
      | .ok (value, _) =>
        if 2 ^ 63 - 1 < value then
          .error (.errorf "time: invalid duration %q" [String.ofList (ds ++ [unit])])
        else .ok value := by
  have hsign : startsWith (String.ofList (ds ++ [unit])) "-" = false := by
    obtain ⟨hne, hds, -⟩ := h
    cases ds with
    | nil => exact absurd rfl hne
    | cons c ds =>
      have hc : c ≠ '-' := by
        rintro rfl
        exact absurd (hds '-' mem_cons_self) (by decide)
      simp [startsWith, List.isPrefixOf, Ne.symm hc]
  have hlen : 2 ≤ (ds ++ [unit]).length := by
    have := length_pos_iff.mpr h.1
    simp only [length_append, length_singleton]
    omega
  have hne : ∀ text : String, text.toList.length ≤ 1 → String.ofList (ds ++ [unit]) ≠ text := by
    rintro text htext rfl
    rw [String.toList_ofList] at htext
    omega
  have hround := durationRound_digits h hunit (String.ofList (ds ++ [unit]))
  obtain ⟨c, cs, hcs⟩ : ∃ c cs, ds ++ [unit] = c :: cs := exists_cons_of_ne_nil (by simp)
  unfold parseDuration
  rw [hsign, unsigned_digits h, if_neg (hne "0" (by decide)), if_neg (hne "" (by decide)),
    String.toList_ofList]
  cases hvalue : durationRound (String.ofList (ds ++ [unit])) (ds ++ [unit]) with
  | error =>
    rw [hcs] at hvalue ⊢
    simp only [length_cons, durationRounds, hvalue]
  | ok r =>
    obtain ⟨value, rest⟩ := r
    have hrest : rest = [] := by
      rw [hvalue] at hround
      split_ifs at hround
      split at hround
      · cases hround
      · split_ifs at hround
        exact (Prod.mk.inj (Except.ok.inj hround)).2
    rw [hrest] at hvalue
    rw [hcs] at hvalue ⊢
    simp only [length_cons, durationRounds, hvalue, Nat.zero_add, Bool.false_eq_true, if_false]
    by_cases hlarge : 2 ^ 63 < value
    · rw [if_pos hlarge, if_pos (by omega)]
    · rw [if_neg hlarge]

end

section
variable {ds : List Char} {n : ℕ} (h : Digits ds n)
include h

theorem parseDuration_digits {unit : Char} {size : ℕ} (hunit : (unit, size) ∈ wholeUnits) :
    parseDuration (String.ofList (ds ++ [unit])) =
      if n * size < 2 ^ 63 then .ok ((n * size : ℕ) : ℤ)
      else .error (.errorf "time: invalid duration %q" [String.ofList (ds ++ [unit])]) := by
  obtain ⟨hends, hlookup, hpos⟩ := lookup_wholeUnits hunit
  have hle : n ≤ n * size := Nat.le_mul_of_pos_right n hpos
  rw [parseDuration_eq_round h hends, durationRound_digits h hends, hlookup]
  by_cases hn : n ≤ 2 ^ 63
  · rw [if_pos hn]
    by_cases hsize : 2 ^ 63 / size < n
    · have hlarge : ¬n * size < 2 ^ 63 := by
        rw [Nat.div_lt_iff_lt_mul hpos] at hsize
        exact not_lt.mpr hsize.le
      simp only [if_pos hsize, if_neg hlarge]
    · simp only [if_neg hsize]
      by_cases hfits : n * size < 2 ^ 63
      · rw [if_neg (by omega), if_pos hfits]
      · rw [if_pos (by omega), if_neg hfits]
  · simp only [if_neg hn, if_neg (by omega : ¬n * size < 2 ^ 63)]

/-- There are no days. -/
theorem exists_parseDuration_error :
    ∃ e, parseDuration (String.ofList (ds ++ ['d'])) = .error e := by
  rw [parseDuration_eq_round h (by decide), durationRound_digits h (by decide)]
  by_cases hn : n ≤ 2 ^ 63
  · rw [if_pos hn]
    exact ⟨_, rfl⟩
  · rw [if_neg hn]
    exact ⟨_, rfl⟩

end

end ArgusEdr.Go
