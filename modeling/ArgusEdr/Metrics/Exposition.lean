import ArgusEdr.Go.Text

/-!
# The metrics text (`internal/metrics`)

A label value is escaped for the text format by `escapeLabel`. A histogram counts an observation in
the first bucket whose bound is not below it, and `writeSeries` adds the counts up.
-/

namespace ArgusEdr.Metrics

open List

open Go (Bytes ascii)

/-! ## Labels -/

/-- Whether a byte is a backslash, a quote or a line feed. -/
def reserved (b : UInt8) : Bool := b == 92 || b == 34 || b == 10

def needsEscape (value : Bytes) : Bool := value.any reserved

/-- What the loop of `escapeLabel` appends for a byte. -/
def escapeByte (b : UInt8) : Bytes :=
  if b = 92 ∨ b = 34 then [92, b] else if b = 10 then [92, 110] else [b]

def escapeLabel (value : Bytes) : Bytes :=
  if needsEscape value then value.flatMap escapeByte else value

def writeLabel (name value : Bytes) : Bytes := name ++ ascii "=\"" ++ escapeLabel value ++ ascii "\""

/-- The series of a label value, in a line of `CounterVec.writeProm`. -/
def series (name label value : Bytes) : Bytes :=
  name ++ ascii "\x7b" ++ writeLabel label value ++ ascii "\x7d"

def unescapeLabel : Bytes → Bytes
  | b :: c :: rest =>
    if b = 92 then (if c = 110 then 10 else c) :: unescapeLabel rest
    else b :: unescapeLabel (c :: rest)
  | [b] => [b]
  | [] => []

theorem escapeByte_cases (b : UInt8) :
    ((b = 92 ∨ b = 34) ∧ escapeByte b = [92, b]) ∨ (b = 10 ∧ escapeByte b = [92, 110]) ∨
      (b ≠ 92 ∧ b ≠ 34 ∧ b ≠ 10 ∧ escapeByte b = [b]) := by
  unfold escapeByte
  split_ifs with h h'
  · exact .inl ⟨h, rfl⟩
  · exact .inr (.inl ⟨h', rfl⟩)
  · rw [not_or] at h
    exact .inr (.inr ⟨h.1, h.2, h', rfl⟩)

theorem escapeLabel_eq (value : Bytes) : escapeLabel value = value.flatMap escapeByte := by
  unfold escapeLabel
  split_ifs with h
  · rfl
  · have hplain : ∀ b ∈ value, escapeByte b = [b] := by
      intro b hb
      have hreserved : reserved b = false := by
        simpa using fun hb' => h (any_eq_true.mpr ⟨b, hb, hb'⟩)
      obtain ⟨h | h, -⟩ | ⟨h, -⟩ | ⟨-, -, -, heq⟩ := escapeByte_cases b
      · simp [reserved, h] at hreserved
      · simp [reserved, h] at hreserved
      · simp [reserved, h] at hreserved
      · exact heq
    rw [flatMap_congr hplain, flatMap_singleton']

theorem unescapeLabel_cons {b : UInt8} (h : b ≠ 92) (rest : Bytes) :
    unescapeLabel (b :: rest) = b :: unescapeLabel rest := by
  cases rest with
  | nil => rfl
  | cons => rw [unescapeLabel, if_neg h]

theorem unescapeLabel_escapeByte (b : UInt8) (rest : Bytes) :
    unescapeLabel (escapeByte b ++ rest) = b :: unescapeLabel rest := by
  obtain ⟨rfl | rfl, h⟩ | ⟨rfl, h⟩ | ⟨hb, -, -, h⟩ := escapeByte_cases b
  · simp [h, unescapeLabel]
  · simp [h, unescapeLabel]
  · simp [h, unescapeLabel]
  · rw [h, singleton_append, unescapeLabel_cons hb]

theorem unescapeLabel_escapeLabel (value : Bytes) : unescapeLabel (escapeLabel value) = value := by
  rw [escapeLabel_eq]
  induction value with
  | nil => rfl
  | cons b value ih => rw [flatMap_cons, unescapeLabel_escapeByte, ih]

theorem newline_notMem_escapeLabel (value : Bytes) : 10 ∉ escapeLabel value := by
  rw [escapeLabel_eq, mem_flatMap]
  rintro ⟨b, -, hb⟩
  obtain ⟨h | h, heq⟩ | ⟨-, heq⟩ | ⟨-, -, h, heq⟩ := escapeByte_cases b
  · rw [heq, h] at hb
    exact absurd hb (by decide)
  · rw [heq, h] at hb
    exact absurd hb (by decide)
  · rw [heq] at hb
    exact absurd hb (by decide)
  · rw [heq, mem_singleton] at hb
    exact h hb.symm

theorem eq_of_escapeByte_eq {b : UInt8} {before after : Bytes}
    (h : escapeByte b = before ++ 34 :: after) : before = [92] := by
  obtain ⟨-, heq⟩ | ⟨-, heq⟩ | ⟨-, hne, -, heq⟩ := escapeByte_cases b
  · rcases before with _ | ⟨c, _ | ⟨d, before⟩⟩ <;> simp_all
  · rcases before with _ | ⟨c, _ | ⟨d, before⟩⟩ <;> simp_all
  · rcases before with _ | ⟨c, before⟩ <;> simp_all

theorem before_quote {value before after : Bytes}
    (h : value.flatMap escapeByte = before ++ 34 :: after) :
    ∃ front : Bytes, before = front.flatMap escapeByte ++ [92] := by
  induction value generalizing before with
  | nil => simp at h
  | cons b value ih =>
    rw [flatMap_cons, append_eq_append_iff] at h
    obtain ⟨mid, rfl, hmid⟩ | ⟨mid, hb, hmid⟩ := h
    · obtain ⟨front, rfl⟩ := ih hmid
      exact ⟨b :: front, by simp⟩
    · cases mid with
      | nil =>
        -- the quote would be the first byte of what follows
        have hhead : value.flatMap escapeByte = [] ++ 34 :: after := hmid.symm
        obtain ⟨front, hfront⟩ := ih hhead
        simp at hfront
      | cons =>
        cases hmid
        exact ⟨[], eq_of_escapeByte_eq hb⟩

def backslashes (text : Bytes) : ℕ := (text.rtakeWhile (· == 92)).length

theorem backslashes_concat (text : Bytes) (b : UInt8) :
    backslashes (text ++ [b]) = if b = 92 then backslashes text + 1 else 0 := by
  unfold backslashes
  split_ifs with h
  · rw [rtakeWhile_concat_pos _ _ _ (by simpa using h), length_append]
    rfl
  · rw [rtakeWhile_concat_neg _ _ _ (by simpa using h)]
    rfl

theorem even_backslashes (value : Bytes) : Even (backslashes (value.flatMap escapeByte)) := by
  induction value using List.reverseRecOn with
  | nil => exact Even.zero
  | append_singleton value b ih =>
    rw [flatMap_append, flatMap_singleton]
    obtain ⟨h | h, heq⟩ | ⟨-, heq⟩ | ⟨h, -, -, heq⟩ := escapeByte_cases b
    · rw [heq, h, append_cons, backslashes_concat, backslashes_concat, if_pos rfl, if_pos rfl]
      exact ih.add (by decide : Even 2)
    · rw [heq, h, append_cons, backslashes_concat, if_neg (by decide)]
      exact Even.zero
    · rw [heq, append_cons, backslashes_concat, if_neg (by decide)]
      exact Even.zero
    · rw [heq, backslashes_concat, if_neg h]
      exact Even.zero

/-- The escaped text of every label value has no line feed, and every quote in it stands behind an
odd number of backslashes. Undoing the escapes gives the value back, and different values have
different series. -/
theorem escapeLabel_spec (value : Bytes) :
    10 ∉ escapeLabel value ∧
    (∀ before after, escapeLabel value = before ++ 34 :: after → Odd (backslashes before)) ∧
    unescapeLabel (escapeLabel value) = value ∧
    ∀ name label value', series name label value = series name label value' → value = value' := by
  refine ⟨newline_notMem_escapeLabel value, ?_, unescapeLabel_escapeLabel value, ?_⟩
  · intro before after h
    rw [escapeLabel_eq] at h
    obtain ⟨front, rfl⟩ := before_quote h
    rw [backslashes_concat, if_pos rfl]
    exact (even_backslashes front).add_one
  · intro name label value' h
    have hescaped : escapeLabel value = escapeLabel value' := by
      simpa [series, writeLabel] using h
    rw [← unescapeLabel_escapeLabel value, hescaped, unescapeLabel_escapeLabel]

/-! ## Histograms -/

/-- `Histogram`; the last of the counts is that of the bucket without a bound. -/
structure Histogram (α : Type) where
  name : Bytes
  bounds : List α
  counts : List UInt64
  sum : α
  total : UInt64

section
variable {α : Type} [LinearOrder α] [Zero α] [Add α]

def newHistogram (name : Bytes) (buckets : List α) : Histogram α where
  name := name
  bounds := buckets.insertionSort (· ≤ ·)
  counts := List.replicate (buckets.length + 1) 0
  sum := 0
  total := 0

namespace Histogram

/-- The first bucket whose bound is not below the value, or the one behind all bounds. -/
def bucketIndex (h : Histogram α) (v : α) : ℕ := h.bounds.findIdx (v ≤ ·)

def observe (h : Histogram α) (v : α) : Histogram α :=
  { h with
    counts := h.counts.modify (h.bucketIndex v) (· + 1)
    sum := h.sum + v
    total := h.total + 1 }

def running (cumulative : UInt64) : List UInt64 → List UInt64
  | [] => []
  | count :: counts => (cumulative + count) :: running (cumulative + count) counts

end Histogram

def uint (n : UInt64) : Bytes := ascii (Go.formatUint n.toNat)

def writeBucket (name label le : Bytes) (count : UInt64) : Bytes :=
  name ++ ascii "_bucket\x7b" ++ (if label = [] then [] else label ++ ascii ",") ++ ascii "le=\"" ++
    le ++ ascii "\"\x7d " ++ uint count ++ ascii "\n"

def writeSuffix (name suffix label : Bytes) : Bytes :=
  name ++ suffix ++ (if label = [] then [] else ascii "\x7b" ++ label ++ ascii "\x7d") ++ ascii " "

def Histogram.writeSeries (format : α → Bytes) (h : Histogram α) (label : Bytes) : Bytes :=
  (List.zipWith (writeBucket h.name label) (h.bounds.map format ++ [ascii "+Inf"])
    (running 0 h.counts)).flatten ++
  writeSuffix h.name (ascii "_sum") label ++ format h.sum ++ ascii "\n" ++
  writeSuffix h.name (ascii "_count") label ++ uint h.total ++ ascii "\n"

namespace Histogram

variable {v : α} {counts : List UInt64} {cumulative total : UInt64}

theorem running_succ (cumulative : UInt64) (counts : List UInt64) :
    running (cumulative + 1) counts = (running cumulative counts).map (· + 1) := by
  induction counts generalizing cumulative with
  | nil => rfl
  | cons count counts ih => rw [running, running, add_right_comm, ih, map_cons]

omit [Zero α] [Add α] in
/-- One more in the bucket of a value is one more in the line of every bound that is not below it. -/
theorem running_modify {bounds : List α} {shown : α → UInt64} (hbounds : bounds.Pairwise (· ≤ ·))
    (h : running cumulative counts = bounds.map shown ++ [total]) :
    running cumulative (counts.modify (bounds.findIdx (v ≤ ·)) (· + 1)) =
      bounds.map (fun b => if v ≤ b then shown b + 1 else shown b) ++ [total + 1] := by
  induction bounds generalizing counts cumulative with
  | nil =>
    cases counts with
    | nil => simp [running] at h
    | cons count counts =>
      simp only [running, map_nil, nil_append, List.cons.injEq] at h
      cases counts with
      | nil => simp [running, ← h.1, add_assoc]
      | cons => simp [running] at h
  | cons b bounds ih =>
    obtain ⟨hb, hbounds⟩ := pairwise_cons.mp hbounds
    cases counts with
    | nil => simp [running] at h
    | cons =>
      simp only [running, map_cons, cons_append, List.cons.injEq] at h
      obtain ⟨hfirst, hrest⟩ := h
      rw [hfirst] at hrest
      by_cases hv : v ≤ b
      · -- the value is counted here, and added up in all lines from here on
        have hall : ∀ a ∈ bounds, (if v ≤ a then shown a + 1 else shown a) = shown a + 1 := fun a ha =>
          if_pos (hv.trans (hb a ha))
        rw [findIdx_cons, decide_eq_true hv]
        simp only [cond_true, modify_zero_cons, running, ← add_assoc, hfirst, running_succ,
          hrest, map_cons, if_pos hv, map_congr_left hall]
        simp
      · rw [findIdx_cons, decide_eq_false hv]
        simp only [cond_false, modify_succ_cons, running, hfirst, ih hbounds hrest,
          map_cons, if_neg hv, cons_append]

theorem running_replicate (n : ℕ) : running 0 (List.replicate n 0) = List.replicate n 0 := by
  induction n with
  | zero => rfl
  | succ n ih => simp [replicate_succ, running, ih]

/-- What the lines of a histogram show that has seen the observations. -/
structure Saw (name : Bytes) (buckets obs : List α) (h : Histogram α) : Prop where
  name : h.name = name
  bounds : h.bounds = buckets.insertionSort (· ≤ ·)
  running : running 0 h.counts =
    h.bounds.map (fun b => .ofNat (obs.countP (· ≤ b))) ++ [.ofNat obs.length]
  sum : h.sum = obs.foldl (· + ·) 0
  total : h.total = .ofNat obs.length

theorem saw_observed (name : Bytes) (buckets obs : List α) :
    Saw name buckets obs (obs.foldl observe (newHistogram name buckets)) := by
  induction obs using List.reverseRecOn with
  | nil =>
    refine ⟨rfl, rfl, ?_, rfl, rfl⟩
    show Histogram.running 0 (List.replicate (buckets.length + 1) 0) = _
    rw [running_replicate, replicate_succ']
    simp [newHistogram, map_const']
  | append_singleton obs v ih =>
    rw [foldl_concat]
    have hsorted : (obs.foldl observe (newHistogram name buckets)).bounds.Pairwise (· ≤ ·) := by
      rw [ih.bounds]
      exact pairwise_insertionSort _ _
    refine ⟨ih.name, ih.bounds, ?_, ?_, ?_⟩
    · refine (running_modify hsorted ih.running).trans ?_
      simp [observe, countP_append, apply_ite]
    · rw [foldl_concat, ← ih.sum]
      rfl
    · simp [observe, ih.total]

end Histogram

omit [Zero α] [Add α] in
theorem countP_le_mono (obs : List α) {a b : α} (h : a ≤ b) :
    obs.countP (· ≤ a) ≤ obs.countP (· ≤ b) :=
  countP_mono_left fun v _ hv => by simpa using (of_decide_eq_true hv).trans h

/-- For every list of bounds and every sequence of observations, the rendered histogram has a line
for each bound, in ascending order, with the number of observations that do not exceed it, which
does not decrease from line to line, and the line without a bound and the count show the number of
all. The numbers shown are 64 bits wide: they are the numbers themselves for fewer than `2 ^ 64`
observations. -/
theorem writeSeries_observed (format : α → Bytes) (name : Bytes) (buckets obs : List α)
    (label : Bytes) :
    (obs.foldl Histogram.observe (newHistogram name buckets)).writeSeries format label =
      ((buckets.insertionSort (· ≤ ·)).map fun b =>
        writeBucket name label (format b) (.ofNat (obs.countP (· ≤ b)))).flatten ++
      writeBucket name label (ascii "+Inf") (.ofNat obs.length) ++
      writeSuffix name (ascii "_sum") label ++ format (obs.foldl (· + ·) 0) ++ ascii "\n" ++
      writeSuffix name (ascii "_count") label ++ uint (.ofNat obs.length) ++ ascii "\n" ∧
    (buckets.insertionSort (· ≤ ·)).Pairwise
      (fun a b => a ≤ b ∧ obs.countP (· ≤ a) ≤ obs.countP (· ≤ b)) ∧
    (obs.length < 2 ^ 64 →
      (∀ b, (UInt64.ofNat (obs.countP (· ≤ b))).toNat = obs.countP (· ≤ b)) ∧
      (UInt64.ofNat obs.length).toNat = obs.length) := by
  refine ⟨?_, ?_, ?_⟩
  · have hsaw := Histogram.saw_observed name buckets obs
    unfold Histogram.writeSeries
    rw [hsaw.running, hsaw.name, hsaw.bounds, hsaw.sum, hsaw.total,
      zipWith_append (by simp), zipWith_map, zipWith_self]
    simp
  · exact (pairwise_insertionSort _ _).imp fun h => ⟨h, countP_le_mono obs h⟩
  · intro hlen
    refine ⟨fun b => ?_, UInt64.toNat_ofNat_of_lt' hlen⟩
    exact UInt64.toNat_ofNat_of_lt' (countP_le_length.trans_lt hlen)

end

/-- After `2 ^ 64` observations that do not exceed the bound, its line shows none. -/
theorem writeSeries_wraps :
    ((List.replicate (2 ^ 64) (0 : ℕ)).foldl Histogram.observe
      (newHistogram (ascii "latency") [0])).writeSeries (fun n => ascii (toString n)) [] =
    ascii ("latency_bucket\x7ble=\"0\"\x7d 0\n" ++ "latency_bucket\x7ble=\"+Inf\"\x7d 0\n" ++
      "latency_sum 0\n" ++ "latency_count 0\n") := by
  have hsaw := Histogram.saw_observed (ascii "latency") [0] (List.replicate (2 ^ 64) (0 : ℕ))
  have hsum : (List.replicate (2 ^ 64) 0).foldl (· + ·) 0 = 0 := by
    rw [← sum_eq_foldl, sum_replicate, smul_zero]
  unfold Histogram.writeSeries
  rw [hsaw.running, hsaw.name, hsaw.bounds, hsaw.sum, hsaw.total, hsum]
  simp only [countP_replicate, length_replicate]
  decide +kernel

end ArgusEdr.Metrics
