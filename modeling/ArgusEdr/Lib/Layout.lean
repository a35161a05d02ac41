import Mathlib

/-!
# Records in memory

How a C compiler lays out a record: every member stands at the next offset that its alignment
divides, and the whole is padded to a multiple of the largest alignment. Integers are written in one
of two byte orders. `Image` says that a piece of memory holds a record, and nothing about the padding.
-/

namespace ArgusEdr.Layout

open List hiding Vector

/-! ## Byte orders -/

inductive ByteOrder where
  | little
  | big
deriving Repr, DecidableEq

/-- The lowest `w` bytes of a number, the lowest first. -/
def littleBytes : ℕ → ℕ → List UInt8
  | 0, _ => []
  | w + 1, n => UInt8.ofNat n :: littleBytes w (n / 256)

/-- The number with the given bytes, the lowest first. -/
def littleValue (bytes : List UInt8) : ℕ := Nat.ofDigits 256 (bytes.map UInt8.toNat)

theorem length_littleBytes (w n : ℕ) : (littleBytes w n).length = w := by
  induction w generalizing n with
  | zero => rfl
  | succ w ih => rw [littleBytes, length_cons, ih]

theorem littleValue_littleBytes (w n : ℕ) : littleValue (littleBytes w n) = n % 256 ^ w := by
  induction w generalizing n with
  | zero => simp [littleBytes, littleValue, Nat.mod_one]
  | succ w ih =>
    have htail : Nat.ofDigits 256 ((littleBytes w (n / 256)).map UInt8.toNat) =
        n / 256 % 256 ^ w := ih (n / 256)
    have hhead : (UInt8.ofNat n).toNat = n % 256 := UInt8.toNat_ofNat'
    rw [littleBytes, littleValue, map_cons, Nat.ofDigits_cons, htail, hhead, pow_succ',
      Nat.mod_mul]

namespace ByteOrder

def bytes : ByteOrder → ℕ → ℕ → List UInt8
  | .little, w, n => littleBytes w n
  | .big, w, n => (littleBytes w n).reverse

def value : ByteOrder → List UInt8 → ℕ
  | .little, l => littleValue l
  | .big, l => littleValue l.reverse

theorem length_bytes (order : ByteOrder) (w n : ℕ) : (order.bytes w n).length = w := by
  cases order with
  | little => exact length_littleBytes w n
  | big => exact (length_reverse).trans (length_littleBytes w n)

theorem value_bytes (order : ByteOrder) (w n : ℕ) : order.value (order.bytes w n) = n % 256 ^ w := by
  cases order with
  | little => exact littleValue_littleBytes w n
  | big =>
    rw [value, bytes, reverse_reverse]
    exact littleValue_littleBytes w n

end ByteOrder

/-! ## Records -/

/-- A member of a record with the bytes of its value. -/
structure Member where
  align : ℕ
  size : ℕ
  bytes : List UInt8
  length_bytes : bytes.length = size

/-- An integer of `w` bytes, aligned to its width. -/
def Member.int (order : ByteOrder) (w n : ℕ) : Member where
  align := w
  size := w
  bytes := order.bytes w n
  length_bytes := order.length_bytes w n

def Member.array {n : ℕ} (bytes : Vector UInt8 n) : Member where
  align := 1
  size := n
  bytes := bytes.toList
  length_bytes := Vector.length_toList

/-- The next multiple of an alignment. -/
def roundUp (n align : ℕ) : ℕ := (n + align - 1) / align * align

/-- The members with the offsets they stand at, from a position on. -/
def offsets : ℕ → List Member → List (ℕ × Member)
  | _, [] => []
  | pos, m :: ms => (roundUp pos m.align, m) :: offsets (roundUp pos m.align + m.size) ms

/-- The end of the last member. -/
def stop : ℕ → List Member → ℕ
  | pos, [] => pos
  | pos, m :: ms => stop (roundUp pos m.align + m.size) ms

def alignment (ms : List Member) : ℕ := (ms.map Member.align).foldr max 1

/-- The size of the record, padded to a multiple of its alignment. -/
def sizeof (ms : List Member) : ℕ := roundUp (stop 0 ms) (alignment ms)

def slice (raw : List UInt8) (pos len : ℕ) : List UInt8 := (raw.drop pos).take len

def Image (ms : List Member) (raw : List UInt8) : Prop :=
  raw.length = sizeof ms ∧ ∀ p ∈ offsets 0 ms, slice raw p.1 p.2.size = p.2.bytes

/-- Every member stands right behind the one before it. -/
def Packed : ℕ → List Member → Prop
  | _, [] => True
  | pos, m :: ms => roundUp pos m.align = pos ∧ Packed (pos + m.size) ms

theorem slice_append_append {a b c : List UInt8} {pos len : ℕ} (hpos : a.length = pos)
    (hlen : b.length = len) : slice (a ++ (b ++ c)) pos len = b := by
  rw [slice, ← hpos, drop_left, ← hlen, take_left]

theorem image_of_packed {ms : List Member} (h : Packed 0 ms)
    (hsize : sizeof ms = (ms.map Member.size).sum) : Image ms (ms.flatMap Member.bytes) := by
  constructor
  · rw [hsize, length_flatMap]
    exact congrArg List.sum (map_congr_left fun m _ => m.length_bytes)
  · -- the members so far are in front of the position that is reached
    have hfrom : ∀ (pre : List UInt8) (ms : List Member), Packed pre.length ms →
        ∀ p ∈ offsets pre.length ms,
          slice (pre ++ ms.flatMap Member.bytes) p.1 p.2.size = p.2.bytes := by
      intro pre ms
      induction ms generalizing pre with
      | nil => exact fun _ p hp => absurd hp not_mem_nil
      | cons m ms ih =>
        rintro ⟨hround, hrest⟩ p hp
        rw [offsets, hround] at hp
        rw [flatMap_cons]
        cases hp with
        | head => exact slice_append_append rfl m.length_bytes
        | tail _ hp =>
          have hpre : (pre ++ m.bytes).length = pre.length + m.size := by
            rw [length_append, m.length_bytes]
          rw [← append_assoc]
          exact ih (pre ++ m.bytes) (hpre ▸ hrest) p (hpre ▸ hp)
    exact hfrom [] ms h

end ArgusEdr.Layout
