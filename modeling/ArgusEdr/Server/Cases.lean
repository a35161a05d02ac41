import ArgusEdr.Go.Strconv
import ArgusEdr.Lib.Runs
import ArgusEdr.Model.Event

/-!
# Investigation cases (`server/cases`)

The in-memory case store. Ids are numbered in the order of creation, and `mutate` is the one path every
change to an existing case takes: it hands the case to a callback, which changes it in place, and only
then looks at the callback's error. `cases_history` is what holds of every history of the store.
-/

namespace ArgusEdr.Cases

open List

open Model (Time)

def statusOpen := "open"
def statusTriage := "triage"
def statusClosed := "closed"

def validStatus (status : String) : Bool := status ∈ [statusOpen, statusTriage, statusClosed]

structure Comment where
  author : String
  body : String
  time : Option Time := none
deriving Repr, DecidableEq

structure Case where
  id : String
  title : String
  status : String
  assignee : String := ""
  severity : String := ""
  host : String := ""
  tags : List String := []
  evidence : List String := []
  comments : List Comment := []
  created : Time
  updated : Time
deriving Repr, DecidableEq

structure CreateInput where
  title : String
  severity : String := ""
  host : String := ""
  tags : List String := []
  evidence : List String := []
deriving Repr, DecidableEq

structure Filter where
  status : String := ""
  assignee : String := ""
deriving Repr, DecidableEq

def errNotFound : Go.Error := .errorf "case not found" []

def severityOrder : List (String × ℕ) :=
  [("info", 1), ("low", 2), ("medium", 3), ("high", 4), ("critical", 5)]

def severityRank (u : Go.Unicode) (severity : String) : ℕ :=
  (severityOrder.lookup (Go.toLower u severity)).getD 0

def validateCreate (u : Go.Unicode) (input : CreateInput) : Except Go.Error Unit :=
  if Go.trimSpace input.title = "" then .error (.errorf "a case needs a title" [])
  else if input.severity ≠ "" ∧ severityRank u input.severity = 0 then
    .error (.errorf "unknown severity %q" [input.severity])
  else .ok ()

/-- Adds each id that is not there yet, in order; an empty id is skipped. -/
def dedupeAppend (existing ids : List String) : List String :=
  ids.foldl (fun seen id => if id ≠ "" ∧ id ∉ seen then seen ++ [id] else seen) existing

structure Memory where
  seq : ℕ := 0
  byID : Std.ExtTreeMap String Case := {}

namespace Memory

def create (u : Go.Unicode) (m : Memory) (now : Time) (input : CreateInput) :
    Except Go.Error (Memory × Case) :=
  match validateCreate u input with
  | .error err => .error err
  | .ok () =>
    let c : Case :=
      { id := "CASE-" ++ Go.pad4 (m.seq + 1)
        title := input.title
        status := statusOpen
        severity := input.severity
        host := input.host
        tags := input.tags
        evidence := dedupeAppend [] input.evidence
        created := now
        updated := now }
    .ok ({ seq := m.seq + 1, byID := m.byID.insert c.id c }, c)

def get (m : Memory) (id : String) : Option Case := m.byID[id]?

/-- The cases that pass the filter, newest first; those created at one moment come in no
particular order. -/
def list (m : Memory) (filter : Filter) : List Case :=
  (m.byID.values.filter fun c =>
    (filter.status = "" || c.status = filter.status) &&
      (filter.assignee = "" || c.assignee = filter.assignee)).insertionSort
    fun a b => b.created ≤ a.created

/-- Applies a change to a case and stamps it. The change is made in place: what it returns is the case
after it, and its error, if it fails. -/
def mutate (m : Memory) (now : Time) (id : String) (change : Case → Case × Option Go.Error) :
    Memory × Except Go.Error Case :=
  match m.get id with
  | none => (m, .error errNotFound)
  | some c =>
    match change c with
    | (changed, some err) => ({ m with byID := m.byID.insert id changed }, .error err)
    | (changed, none) =>
      let stamped := { changed with updated := now }
      ({ m with byID := m.byID.insert id stamped }, .ok stamped)

def assign (m : Memory) (now : Time) (id assignee : String) : Memory × Except Go.Error Case :=
  m.mutate now id fun c => ({ c with assignee }, none)

def setStatus (m : Memory) (now : Time) (id status : String) : Memory × Except Go.Error Case :=
  m.mutate now id fun c =>
    if validStatus status then ({ c with status }, none)
    else (c, some (.errorf "invalid status %q (want open|triage|closed)" [status]))

/-- A comment without a time is given the present one. -/
def addComment (m : Memory) (now : Time) (id : String) (comment : Comment) :
    Memory × Except Go.Error Case :=
  m.mutate now id fun c =>
    ({ c with comments := c.comments ++ [{ comment with time := comment.time.getD now }] }, none)

def addEvidence (m : Memory) (now : Time) (id : String) (alertIDs : List String) :
    Memory × Except Go.Error Case :=
  m.mutate now id fun c => ({ c with evidence := dedupeAppend c.evidence alertIDs }, none)

end Memory

/-! ## Histories -/

inductive Operation where
  | create (now : Time) (input : CreateInput)
  | assign (now : Time) (id assignee : String)
  | setStatus (now : Time) (id status : String)
  | addComment (now : Time) (id : String) (comment : Comment)
  | addEvidence (now : Time) (id : String) (alertIDs : List String)

namespace Memory

open Runs

variable (u : Go.Unicode) {m : Memory} {op : Operation} {id : String} {c : Case}

def apply (m : Memory) : Operation → Memory × Except Go.Error Case
  | .create now input =>
    match m.create u now input with
    | .error err => (m, .error err)
    | .ok (m', c) => (m', .ok c)
  | .assign now id assignee => m.assign now id assignee
  | .setStatus now id status => m.setStatus now id status
  | .addComment now id comment => m.addComment now id comment
  | .addEvidence now id alertIDs => m.addEvidence now id alertIDs

def step (m : Memory) (op : Operation) : Memory := (m.apply u op).1

def created (m : Memory) (op : Operation) : List String :=
  match op, (m.apply u op).2 with
  | .create .., .ok c => [c.id]
  | _, _ => []

def target (m : Memory) : Operation → String
  | .create .. => "CASE-" ++ Go.pad4 (m.seq + 1)
  | .assign _ id _ | .setStatus _ id _ | .addComment _ id _ | .addEvidence _ id _ => id

theorem pad4_injective : Function.Injective Go.pad4 := by
  have hvalue : ∀ n, Nat.ofDigitChars 10 (Go.pad4 n).toList 0 = n := by
    intro n
    have hzeros : ∀ k, Nat.ofDigitChars 10 (List.replicate k '0') 0 = 0 := by
      intro k
      induction k with
      | zero => rfl
      | succ k ih => exact ih
    rw [Go.pad4, String.toList_ofList, Nat.ofDigitChars_append, hzeros]
    exact (congrArg (Nat.ofDigitChars 10 · 0) (Go.toList_formatUint n)).trans
      (Go.digits_toDigits n).2.2
  intro m n h
  rw [← hvalue m, h, hvalue]

theorem caseID_injective {m n : ℕ} (h : "CASE-" ++ Go.pad4 m = "CASE-" ++ Go.pad4 n) : m = n :=
  pad4_injective (by simpa using h)

/-- A valid status, and evidence without an empty or repeated id. -/
structure Valid (c : Case) : Prop where
  status : validStatus c.status = true
  nodup : c.evidence.Nodup
  nonempty : "" ∉ c.evidence

structure Grows (c c' : Case) : Prop where
  evidence : c.evidence <+: c'.evidence
  comments : c.comments <+: c'.comments

theorem Grows.refl (c : Case) : Grows c c := ⟨prefix_refl _, prefix_refl _⟩

theorem Grows.trans {c₁ c₂ c₃ : Case} (h : Grows c₁ c₂) (h' : Grows c₂ c₃) : Grows c₁ c₃ :=
  ⟨h.evidence.trans h'.evidence, h.comments.trans h'.comments⟩

theorem dedupeAppend_spec {existing : List String} (ids : List String) (hnodup : existing.Nodup)
    (hne : "" ∉ existing) :
    existing <+: dedupeAppend existing ids ∧ (dedupeAppend existing ids).Nodup ∧
      "" ∉ dedupeAppend existing ids := by
  unfold dedupeAppend
  induction ids generalizing existing with
  | nil => exact ⟨prefix_refl _, hnodup, hne⟩
  | cons id ids ih =>
    rw [foldl_cons]
    split_ifs with h
    · obtain ⟨hgrows, hrest⟩ := ih (hnodup.append (nodup_singleton id) (by simpa using h.2))
        (by simpa [hne] using Ne.symm h.1)
      exact ⟨(prefix_append _ _).trans hgrows, hrest⟩
    · exact ih hnodup hne

/-- What an operation can do: fail and leave every case as it was, or put a valid case in the place of
its target, which is a new one if it creates it, and has grown if not. -/
inductive Applied (m : Memory) (op : Operation) : Memory × Except Go.Error Case → Prop
  | failed (m' : Memory) (err : Go.Error) (hseq : m'.seq = m.seq) (hget : m'.get = m.get) :
      Applied m op (m', .error err)
  | put (m' : Memory) (c : Case) (hvalid : Valid c)
      (hget : m'.get = Function.update m.get (m.target op) (some c))
      (h : (∃ now input, op = .create now input) ∧ c.id = m.target op ∧ m'.seq = m.seq + 1 ∨
        (∀ now input, op ≠ .create now input) ∧
          (∃ old, m.get (m.target op) = some old ∧ Grows old c) ∧ m'.seq = m.seq) :
      Applied m op (m', .ok c)

def Sound (m : Memory) : Prop :=
  ∀ id c, m.get id = some c → Valid c ∧ ∃ n ≤ m.seq, id = "CASE-" ++ Go.pad4 n

theorem get_insert (m : Memory) (seq : ℕ) (id : String) (c : Case) :
    get { seq, byID := m.byID.insert id c } = Function.update m.get id (some c) := by
  funext k
  rw [get, Std.ExtTreeMap.getElem?_insert, Function.update_apply]
  simp only [compare_eq_iff_eq, @eq_comm _ id]
  rfl

/-- What the callbacks of `mutate` do to a valid case; one that fails leaves it alone. -/
def Keeps (change : Case → Case × Option Go.Error) : Prop :=
  ∀ c, Valid c → Valid (change c).1 ∧ Grows c (change c).1 ∧
    ∀ err, (change c).2 = some err → (change c).1 = c

theorem applied_mutate (h : Sound m) (op : Operation) (now : Time)
    {change : Case → Case × Option Go.Error} (hop : ∀ now input, op ≠ .create now input)
    (hchange : Keeps change) : Applied m op (m.mutate now (m.target op) change) := by
  unfold mutate
  cases hc : m.get (m.target op) with
  | none => exact .failed m _ rfl rfl
  | some c =>
    obtain ⟨hvalid, hgrows, hfailed⟩ := hchange c (h _ c hc).1
    dsimp only
    generalize change c = result at hvalid hgrows hfailed
    obtain ⟨changed, _ | err⟩ := result
    · exact .put _ _ ⟨hvalid.status, hvalid.nodup, hvalid.nonempty⟩ (get_insert m _ _ _)
        (.inr ⟨hop, ⟨c, hc, hgrows.evidence, hgrows.comments⟩, rfl⟩)
    · have hsame : changed = c := hfailed err rfl
      refine .failed _ _ rfl ?_
      rw [get_insert, hsame, ← hc, Function.update_eq_self]

theorem applied_apply (h : Sound m) (op : Operation) : Applied m op (m.apply u op) := by
  cases op with
  | create now input =>
    simp only [apply, create]
    cases validateCreate u input with
    | error err => exact .failed m err rfl rfl
    | ok _ =>
      obtain ⟨-, hnodup, hne⟩ := dedupeAppend_spec input.evidence nodup_nil not_mem_nil
      exact .put _ _ ⟨rfl, hnodup, hne⟩ (get_insert m _ _ _) (.inl ⟨⟨now, input, rfl⟩, rfl, rfl⟩)
  | assign now id assignee =>
    simp only [apply, assign]
    refine applied_mutate h (.assign now id assignee) now (by simp) fun c hc => ?_
    exact ⟨⟨hc.status, hc.nodup, hc.nonempty⟩, ⟨prefix_refl _, prefix_refl _⟩, by simp⟩
  | setStatus now id status =>
    simp only [apply, setStatus]
    refine applied_mutate h (.setStatus now id status) now (by simp) fun c hc => ?_
    split_ifs with hstatus
    · exact ⟨⟨hstatus, hc.nodup, hc.nonempty⟩, ⟨prefix_refl _, prefix_refl _⟩, by simp⟩
    · exact ⟨hc, Grows.refl c, by simp⟩
  | addComment now id comment =>
    simp only [apply, addComment]
    refine applied_mutate h (.addComment now id comment) now (by simp) fun c hc => ?_
    exact ⟨⟨hc.status, hc.nodup, hc.nonempty⟩, ⟨prefix_refl _, prefix_append _ _⟩, by simp⟩
  | addEvidence now id alertIDs =>
    simp only [apply, addEvidence]
    refine applied_mutate h (.addEvidence now id alertIDs) now (by simp) fun c hc => ?_
    obtain ⟨hgrows, hnodup, hne⟩ := dedupeAppend_spec alertIDs hc.nodup hc.nonempty
    exact ⟨⟨hc.status, hnodup, hne⟩, ⟨hgrows, prefix_refl _⟩, by simp⟩

theorem Sound.step (h : Sound m) (op : Operation) : Sound (m.step u op) := by
  have hstep := applied_apply u h op
  unfold Memory.step
  intro id d hd
  generalize m.apply u op = result at hstep hd
  cases hstep with
  | failed m' err hseq hget =>
    rw [hget] at hd
    rw [hseq]
    exact h id d hd
  | put m' c hvalid hget hcase =>
    rw [hget, Function.update_apply] at hd
    dsimp only
    split_ifs at hd with hid
    · cases hd
      refine ⟨hvalid, ?_⟩
      obtain ⟨⟨now, input, rfl⟩, -, hseq⟩ | ⟨-, ⟨old, hold, -⟩, hseq⟩ := hcase
      · exact ⟨m.seq + 1, hseq.ge, hid⟩
      · rw [hseq, hid]
        exact (h _ old hold).2
    · obtain ⟨hdvalid, n, hn, hid⟩ := h id d hd
      exact ⟨hdvalid, n, by omega, hid⟩

theorem sound_run (ops : List Operation) : Sound (run (step u) {} ops) := by
  refine run_invariant ?_ (fun m op h => h.step u op) ops
  intro id c hc
  simp [get] at hc

theorem Sound.grows (h : Sound m) (op : Operation) (hc : m.get id = some c) :
    ∃ c', (m.step u op).get id = some c' ∧ Grows c c' := by
  have hstep := applied_apply u h op
  unfold Memory.step
  generalize m.apply u op = result at hstep
  cases hstep with
  | failed m' err hseq hget => exact ⟨c, hget ▸ hc, Grows.refl c⟩
  | put m' c' hvalid hget hcase =>
    dsimp only
    rw [hget, Function.update_apply]
    split_ifs with hid
    · refine ⟨c', rfl, ?_⟩
      obtain ⟨⟨now, input, rfl⟩, -, -⟩ | ⟨-, ⟨old, hold, hgrows⟩, -⟩ := hcase
      · -- a new case has a number that has not been given out
        obtain ⟨-, n, hn, hgiven⟩ := h id c hc
        exact absurd (caseID_injective (hgiven.symm.trans hid)) (by omega)
      · rw [← hid, hc] at hold
        exact Option.some.inj hold ▸ hgrows
    · exact ⟨c, hc, Grows.refl c⟩

theorem gathered_created (ops : List Operation) :
    gathered (created u) (step u) {} ops =
      (List.range (run (step u) {} ops).seq).map fun n => "CASE-" ++ Go.pad4 (n + 1) := by
  induction ops using List.reverseRecOn with
  | nil => rfl
  | append_singleton ops op ih =>
    rw [gathered_concat, run_concat, ih]
    have hstep := applied_apply u (sound_run u ops) op
    generalize run (step u) {} ops = m at hstep ⊢
    unfold created Memory.step
    generalize m.apply u op = result at hstep ⊢
    cases hstep with
    | failed m' err hseq hget =>
      rw [hseq]
      simp
    | put m' c hvalid hget hcase =>
      obtain ⟨⟨now, input, rfl⟩, hid, hseq⟩ | ⟨hop, -, hseq⟩ := hcase
      · rw [hseq, range_succ]
        simp [hid, target]
      · rw [hseq]
        cases op with
        | create now input => exact absurd rfl (hop now input)
        | assign | setStatus | addComment | addEvidence => simp

/-- In every history of the store no id is given out twice; every case has a valid status, and evidence
without an empty or repeated id; evidence and comments only grow, by appending; an operation changes no
case but its own, and if it fails no case at all. -/
theorem cases_history (ops : List Operation) :
    (gathered (created u) (step u) {} ops).Nodup ∧
    (∀ id c, (run (step u) {} ops).get id = some c → Valid c) ∧
    (∀ more id c, (run (step u) {} ops).get id = some c →
      ∃ c', (run (step u) {} (ops ++ more)).get id = some c' ∧ Grows c c') ∧
    ∀ op id,
      (id ≠ (run (step u) {} ops).target op →
        (run (step u) {} (ops ++ [op])).get id = (run (step u) {} ops).get id) ∧
      (∀ err, ((run (step u) {} ops).apply u op).2 = .error err →
        (run (step u) {} (ops ++ [op])).get id = (run (step u) {} ops).get id) := by
  refine ⟨?_, fun id c hc => (sound_run u ops id c hc).1, ?_, ?_⟩
  · rw [gathered_created]
    refine nodup_range.map fun m n h => ?_
    exact Nat.succ_injective (caseID_injective h)
  · intro more id c hc
    induction more using List.reverseRecOn with
    | nil => exact ⟨c, by simpa using hc, Grows.refl c⟩
    | append_singleton more op ih =>
      obtain ⟨c', hc', hgrows⟩ := ih
      rw [← append_assoc, run_concat]
      obtain ⟨c'', hc'', hgrows'⟩ := (sound_run u (ops ++ more)).grows u op hc'
      exact ⟨c'', hc'', hgrows.trans hgrows'⟩
  · intro op id
    have hstep := applied_apply u (sound_run u ops) op
    rw [run_concat]
    generalize run (step u) {} ops = m at hstep ⊢
    unfold Memory.step
    generalize m.apply u op = result at hstep ⊢
    cases hstep with
    | failed m' err hseq hget => simp [hget]
    | put m' c hvalid hget hcase =>
      refine ⟨fun hid => ?_, fun err herr => by cases herr⟩
      dsimp only
      rw [hget, Function.update_of_ne hid]

end Memory
end ArgusEdr.Cases
