import Mathlib

/-!
# Strings that end with a zero

A string in memory ends at the first zero. `bounded n s` is the copy of a string into a zeroed buffer of
`n` cells, as much of it as leaves room for the zero. `packed` are strings one behind the other, each
with its zero, and `fields` what stands between the zeros: they undo each other but for empty strings
(`fields_packed`). `cut room` is what gets in of strings that are packed into limited room.
-/

namespace ArgusEdr.CString

open List

variable {α : Type*}

theorem take_eq_iff_of_lt {l t : List α} {k : ℕ} (h : t.length < k) : l.take k = t ↔ l = t := by
  constructor
  · intro htake
    have hlen := congrArg List.length htake
    rw [length_take] at hlen
    rw [← htake, take_of_length_le (by omega)]
  · rintro rfl
    exact take_of_length_le h.le

theorem take_eq_iff_of_eq {l t : List α} {k : ℕ} (h : t.length = k) : l.take k = t ↔ t <+: l := by
  rw [prefix_iff_eq_take, h, eq_comm]

/-! ## Filling room -/

/-- Of strings that are packed into `room` cells, those that get in. Each takes a cell more than its
length, and the last one may be cut off. -/
def cut : ℕ → List (List α) → List (List α)
  | _, [] => []
  | room, s :: ss => if room = 0 then [] else s.take room :: cut (room - (s.length + 1)) ss

theorem cut_zero (ss : List (List α)) : cut 0 ss = [] := by
  cases ss with
  | nil | cons => rfl

variable [Zero α]

/-- A string in a zeroed buffer of `n` cells. -/
def pad (n : ℕ) (s : List α) : List α := s ++ List.replicate (n - s.length) 0

def packed (ss : List (List α)) : List α := ss.flatMap fun s => s ++ [0]

theorem packed_cons (s : List α) (ss : List (List α)) :
    packed (s :: ss) = s ++ 0 :: packed ss := by
  rw [packed, flatMap_cons, append_assoc]
  rfl

theorem notMem_of_mem_cut {room : ℕ} {ss : List (List α)} (h : ∀ s ∈ ss, 0 ∉ s) :
    ∀ s ∈ cut room ss, 0 ∉ s := by
  induction ss generalizing room with
  | nil => simp [cut]
  | cons s ss ih =>
    rw [forall_mem_cons] at h
    rw [cut]
    split
    · simp
    · exact forall_mem_cons.mpr ⟨fun hmem => h.1 (mem_of_mem_take hmem), ih h.2⟩

variable [DecidableEq α]

/-! ## One string -/

def text (s : List α) : List α := s.takeWhile (· ≠ 0)

/-- A bounded copy into such a buffer. -/
def bounded (n : ℕ) (s : List α) : List α := pad n ((text s).take (n - 1))

theorem notMem_text (s : List α) : 0 ∉ text s := by
  intro h
  simpa using mem_takeWhile_imp h

theorem text_of_notMem {s : List α} (h : 0 ∉ s) : text s = s := by
  apply takeWhile_eq_self_iff.mpr
  intro a ha
  exact decide_eq_true fun hzero => h (hzero ▸ ha)

theorem text_append_zero {s : List α} (h : 0 ∉ s) (rest : List α) : text (s ++ 0 :: rest) = s := by
  have hall : ∀ a ∈ s, decide (a ≠ 0) = true := fun a ha =>
    decide_eq_true fun hzero => h (hzero ▸ ha)
  rw [text, takeWhile_append_of_pos hall, takeWhile_cons_of_neg (by simp),
    append_nil]

theorem text_pad {s : List α} (h : 0 ∉ s) (n : ℕ) : text (pad n s) = s := by
  rw [pad]
  cases n - s.length with
  | zero => rw [replicate_zero, append_nil, text_of_notMem h]
  | succ => rw [replicate_succ, text_append_zero h]

section
variable {n : ℕ} {s t : List α} (ht : 0 ∉ t)
include ht

theorem bounded_eq_pad_iff : bounded n s = pad n t ↔ (text s).take (n - 1) = t := by
  constructor
  · intro h
    have hzero : 0 ∉ (text s).take (n - 1) := fun hmem => notMem_text s (mem_of_mem_take hmem)
    rw [← text_pad hzero n, ← text_pad ht n]
    exact congrArg text h
  · rintro rfl
    rfl

theorem bounded_eq_pad_iff_of_eq (h : t.length + 1 = n) :
    bounded n s = pad n t ↔ t <+: text s := by
  rw [bounded_eq_pad_iff ht, take_eq_iff_of_eq (by omega)]

theorem take_pad_eq_iff (hs : 0 ∉ s) (h : t.length < n) :
    (pad n s).take (t.length + 1) = t ++ [0] ↔ s = t := by
  constructor
  · intro htake
    have htext : text (pad n s) = t := by
      rw [← take_append_drop (t.length + 1) (pad n s), htake, append_assoc,
        singleton_append, text_append_zero ht]
    rw [← htext, text_pad hs]
  · rintro rfl
    have hzeros : n - s.length = (n - s.length - 1) + 1 := by omega
    rw [pad, hzeros, replicate_succ, append_cons, take_left' (by simp)]

end

/-! ## Many strings -/

/-- What stands between the zeros, empty strings left out. -/
def fields (b : List α) : List (List α) := (b.splitOn 0).filter (· ≠ [])

theorem fields_append_zero (a b : List α) : fields (a ++ 0 :: b) = fields a ++ fields b := by
  have hsplit : (a ++ 0 :: b).splitOn 0 = a.splitOn 0 ++ b.splitOn 0 :=
    splitOnP_append_cons a b (beq_self_eq_true 0)
  rw [fields, hsplit, filter_append]
  rfl

theorem fields_of_notMem {s : List α} (h : 0 ∉ s) : fields s = [s].filter (· ≠ []) := by
  rw [fields, splitOn_eq_singleton h]

theorem fields_packed {ss : List (List α)} (h : ∀ s ∈ ss, 0 ∉ s) :
    fields (packed ss) = ss.filter (· ≠ []) := by
  induction ss with
  | nil => rfl
  | cons s ss ih =>
    rw [forall_mem_cons] at h
    rw [packed_cons, fields_append_zero, fields_of_notMem h.1, ih h.2, ← filter_append,
      singleton_append]

end ArgusEdr.CString
