import ArgusEdr.Lib.Runs

/-!
# The alert reporter (`internal/fleet/reporter.go`)

The pipeline hands reports to a bounded queue, and one goroutine sends them over a stream that it
reopens when it breaks; on shutdown it makes one attempt to send what is left. A report leaves the
queue before the outcome of its sending is known. The state also records what was offered to `Enqueue`
and what was given to `Send`; `Fifo` is the invariant.
-/

namespace ArgusEdr.Fleet

open Runs

variable {α : Type}

def defaultReportQueue : ℕ := 1024

inductive ReportPhase (α : Type) where
  /-- at the head of the loop of `Run` -/
  | checking
  /-- in `pump`, opening the stream -/
  | opening
  /-- in the `select` of `pump` -/
  | pumping
  /-- in `pump`, sending -/
  | sending (report : α)
  /-- in `sleep` -/
  | sleeping
  /-- at the start of `flushRemaining` -/
  | flushing
  /-- in `flushRemaining`, opening the stream -/
  | reopening
  /-- in the `select` of `flushRemaining` -/
  | draining
  /-- in `flushRemaining`, sending -/
  | flushSending (report : α)
  | finished
deriving Repr, DecidableEq

def ReportPhase.hand : ReportPhase α → List α
  | .sending report | .flushSending report => [report]
  | .checking | .opening | .pumping | .sleeping | .flushing | .reopening | .draining
  | .finished => []

/-- `Reporter`, with its goroutine. `offered` are the reports given to `Enqueue` and whether they
were queued, `handled` those given to `Send` and whether it succeeded, oldest first. -/
structure Reporter (α : Type) where
  depth : ℕ
  queue : List α := []
  dropped : UInt64 := 0
  canceled : Bool := false
  phase : ReportPhase α := .checking
  offered : List (α × Bool) := []
  handled : List (α × Bool) := []
deriving Repr, DecidableEq

def Client.newReporter (queueDepth : ℤ) : Reporter α where
  depth := if queueDepth ≤ 0 then defaultReportQueue else queueDepth.toNat

namespace Reporter

def enqueue (r : Reporter α) (report : α) : Reporter α :=
  if r.queue.length < r.depth then
    { r with queue := r.queue ++ [report], offered := r.offered ++ [(report, true)] }
  else { r with dropped := r.dropped + 1, offered := r.offered ++ [(report, false)] }

/-- `pump` returns with an error. -/
def broken (r : Reporter α) : ReportPhase α := if r.canceled then .checking else .sleeping

/-- The next step of `Run`. `ok` is whether the stream opens or the sending succeeds, and in a
`select` with two ready cases whether the queue is chosen. -/
def advance (r : Reporter α) (ok : Bool) : Reporter α :=
  match r.phase with
  | .checking => { r with phase := if r.canceled then .flushing else .opening }
  | .opening => { r with phase := if ok then .pumping else r.broken }
  | .pumping =>
    match r.queue with
    | [] => if r.canceled then { r with phase := .checking } else r
    | report :: rest =>
      if r.canceled && !ok then { r with phase := .checking }
      else { r with queue := rest, phase := .sending report }
  | .sending report =>
    { r with
      phase := if ok then .pumping else r.broken
      handled := r.handled ++ [(report, ok)] }
  | .sleeping => { r with phase := .checking }
  | .flushing => { r with phase := if r.queue = [] then .finished else .reopening }
  | .reopening => { r with phase := if ok then .draining else .finished }
  | .draining =>
    match r.queue with
    | [] => { r with phase := .finished }
    | report :: rest => { r with queue := rest, phase := .flushSending report }
  | .flushSending report =>
    { r with
      phase := if ok then .draining else .finished
      handled := r.handled ++ [(report, ok)] }
  | .finished => r

inductive Event (α : Type) where
  | enqueue (report : α)
  | cancel
  | advance (ok : Bool)
deriving Repr, DecidableEq

def step (r : Reporter α) : Event α → Reporter α
  | .enqueue report => r.enqueue report
  | .cancel => { r with canceled := true }
  | .advance ok => r.advance ok

/-! ## Where the reports are -/

/-- The values that a list of outcomes gives the outcome `b`. -/
def having (b : Bool) (outcomes : List (α × Bool)) : List α :=
  (outcomes.filter fun p => p.2 = b).map Prod.fst

def enqueued (r : Reporter α) : List α := r.offered.map Prod.fst

def hand (r : Reporter α) : List α := r.phase.hand

def sent (r : Reporter α) : List α := having true r.handled

def lost (r : Reporter α) : List α := having false r.handled

def turnedAway (r : Reporter α) : List α := having false r.offered

/-- Every report is in exactly one of four places, and `Dropped` counts those in the last. -/
def Accounted (r : Reporter α) : Prop :=
  (r.enqueued : Multiset α) = r.queue + r.hand + r.sent + r.turnedAway ∧
    r.dropped = UInt64.ofNat r.turnedAway.length

def Fifo (r : Reporter α) : Prop :=
  having true r.offered = r.handled.map Prod.fst ++ r.hand ++ r.queue

def FailsSend (r : Reporter α) (e : Event α) : Prop := e = .advance false ∧ r.hand ≠ []

theorem having_concat (b : Bool) (outcomes : List (α × Bool)) (a : α) (c : Bool) :
    having b (outcomes ++ [(a, c)]) = having b outcomes ++ if c = b then [a] else [] := by
  by_cases h : c = b <;> simp [having, h]

theorem having_sublist (b : Bool) (outcomes : List (α × Bool)) :
    (having b outcomes).Sublist (outcomes.map Prod.fst) :=
  List.filter_sublist.map _

theorem coe_map_fst (outcomes : List (α × Bool)) :
    (outcomes.map Prod.fst : Multiset α) = having true outcomes + having false outcomes := by
  have hperm := (List.filter_append_perm (fun p : α × Bool => p.2) outcomes).map Prod.fst
  rw [Multiset.coe_add, Multiset.coe_eq_coe]
  simpa [having] using hperm.symm

/-! ## What a step does -/

/-- A step of `Run` moves no report, takes the next one in hand, or sends the one in hand. -/
theorem advance_cases (r : Reporter α) (ok : Bool) :
    (r.advance ok).offered = r.offered ∧ (r.advance ok).dropped = r.dropped ∧
    ((r.hand = [] ∧ (r.advance ok).hand = [] ∧ (r.advance ok).queue = r.queue ∧
        (r.advance ok).handled = r.handled) ∨
      (∃ report, r.hand = [] ∧ (r.advance ok).hand = [report] ∧
        r.queue = report :: (r.advance ok).queue ∧ (r.advance ok).handled = r.handled) ∨
      ∃ report, r.hand = [report] ∧ (r.advance ok).hand = [] ∧ (r.advance ok).queue = r.queue ∧
        (r.advance ok).handled = r.handled ++ [(report, ok)]) := by
  obtain ⟨depth, queue, dropped, canceled, phase, offered, handled⟩ := r
  cases phase with
  | checking => cases canceled <;> simp [advance, hand, ReportPhase.hand]
  | opening => cases canceled <;> cases ok <;> simp [advance, broken, hand, ReportPhase.hand]
  | pumping => cases queue <;> cases canceled <;> cases ok <;> simp [advance, hand, ReportPhase.hand]
  | sending => cases canceled <;> cases ok <;> simp [advance, broken, hand, ReportPhase.hand]
  | sleeping => simp [advance, hand, ReportPhase.hand]
  | flushing => cases queue <;> simp [advance, hand, ReportPhase.hand]
  | reopening => cases ok <;> simp [advance, hand, ReportPhase.hand]
  | draining => cases queue <;> simp [advance, hand, ReportPhase.hand]
  | flushSending => cases ok <;> simp [advance, hand, ReportPhase.hand]
  | finished => simp [advance, hand, ReportPhase.hand]

theorem Fifo.step {r : Reporter α} (h : Fifo r) (e : Event α) : Fifo (r.step e) := by
  cases e with
  | enqueue =>
    simp only [Reporter.step, enqueue]
    unfold Fifo at h ⊢
    split
    all_goals
      rw [having_concat, h]
      simp [hand]
  | cancel => exact h
  | advance ok =>
    simp only [Reporter.step]
    unfold Fifo at h ⊢
    obtain ⟨hoffered, -, ⟨hhand, hhand', hqueue, hhandled⟩ | ⟨report, hhand, hhand', hqueue, hhandled⟩ |
      ⟨report, hhand, hhand', hqueue, hhandled⟩⟩ := advance_cases r ok
    · rw [hoffered, h, hhand, hhand', hqueue, hhandled]
    all_goals
      rw [hoffered, h, hhand, hhand', hqueue, hhandled]
      simp

/-- `Dropped` counts the reports turned away. -/
def Counted (r : Reporter α) : Prop := r.dropped = UInt64.ofNat r.turnedAway.length

theorem Counted.step {r : Reporter α} (h : Counted r) (e : Event α) : Counted (r.step e) := by
  cases e with
  | enqueue =>
    simp only [Reporter.step, enqueue]
    unfold Counted turnedAway at h ⊢
    split
    · simpa [having_concat] using h
    · rw [having_concat, h]
      simp [UInt64.ofNat_add]
  | cancel => exact h
  | advance ok =>
    simp only [Reporter.step]
    obtain ⟨hoffered, hdropped, -⟩ := advance_cases r ok
    unfold Counted turnedAway at h ⊢
    rw [hoffered, hdropped, h]

theorem lost_step_eq_nil_iff {r : Reporter α} (h : r.lost = []) (e : Event α) :
    (r.step e).lost = [] ↔ ¬ FailsSend r e := by
  cases e with
  | enqueue report =>
    have hlost : (r.enqueue report).lost = r.lost := by
      unfold enqueue
      split <;> rfl
    simp [Reporter.step, hlost, h, FailsSend]
  | cancel =>
    have hlost : (r.step .cancel).lost = r.lost := rfl
    simp [hlost, h, FailsSend]
  | advance ok =>
    simp only [Reporter.step]
    unfold lost at h ⊢
    obtain ⟨-, -, ⟨hhand, -, -, hhandled⟩ | ⟨report, hhand, -, -, hhandled⟩ |
      ⟨report, hhand, -, -, hhandled⟩⟩ := advance_cases r ok
    · simp [hhandled, h, FailsSend, hhand]
    · simp [hhandled, h, FailsSend, hhand]
    · simp [hhandled, having_concat, h, FailsSend, hhand]

/-! ## Over a run -/

section
variable (queueDepth : ℤ) (es : List (Event α))

theorem fifo_run : Fifo (run step (Client.newReporter queueDepth) es) := by
  have h0 : Fifo (Client.newReporter queueDepth : Reporter α) := rfl
  exact run_invariant h0 (fun _ e h => h.step e) es

theorem counted_run : Counted (run step (Client.newReporter queueDepth) es) := by
  have h0 : Counted (Client.newReporter queueDepth : Reporter α) := rfl
  exact run_invariant h0 (fun _ e h => h.step e) es

theorem Fifo.balance {r : Reporter α} (h : Fifo r) :
    (r.enqueued : Multiset α) = r.queue + r.hand + r.sent + r.turnedAway + r.lost := by
  have hqueued : (having true r.offered : Multiset α) =
      r.sent + r.lost + r.hand + r.queue := by
    rw [h, ← Multiset.coe_add, ← Multiset.coe_add, coe_map_fst, sent, lost]
  rw [enqueued, coe_map_fst, hqueued, turnedAway]
  abel

theorem accounted_iff {r : Reporter α} (hfifo : Fifo r) (hcounted : Counted r) :
    Accounted r ↔ r.lost = [] := by
  unfold Accounted
  rw [hfifo.balance, add_eq_left, Multiset.coe_eq_zero]
  exact and_iff_left hcounted

end

/-- In every run of the reporter, the reports sent are in the order in which they were enqueued. Every
report is at every moment queued, in hand, sent or turned away and counted, and in one of these places
only, exactly if no sending of the run fails. -/
theorem reports_accounted (queueDepth : ℤ) (es : List (Event α)) :
    (run step (Client.newReporter queueDepth) es).sent.Sublist
      (run step (Client.newReporter queueDepth) es).enqueued ∧
    ((∀ pre, pre <+: es → Accounted (run step (Client.newReporter queueDepth) pre)) ↔
      AllSteps step (fun r e => ¬ FailsSend r e) (Client.newReporter queueDepth) es) := by
  constructor
  · -- what was sent was handled, what was handled was queued, what was queued was enqueued
    have hfifo := fifo_run queueDepth es
    set r := run step (Client.newReporter queueDepth) es
    calc r.sent.Sublist _ := having_sublist true r.handled
      List.Sublist _ (having true r.offered) := by
        rw [hfifo, List.append_assoc]
        exact List.sublist_append_left _ _
      List.Sublist _ r.enqueued := having_sublist true r.offered
  · have hlost : ∀ pre : List (Event α), Accounted (run step (Client.newReporter queueDepth) pre) ↔
        (run step (Client.newReporter queueDepth) pre).lost = [] := fun pre =>
      accounted_iff (fifo_run queueDepth pre) (counted_run queueDepth pre)
    simp only [hlost]
    exact AllSteps.always.forall_prefix_iff (I := fun r : Reporter α => r.lost = []) rfl
      fun _ e h _ => lost_step_eq_nil_iff h e

/-- A report is taken off the queue, and its sending fails. -/
theorem reports_lost_by_failed_send :
    ¬ Accounted (run step (Client.newReporter 0) [.enqueue "alert", .advance true, .advance true,
      .advance true, .advance false]) := by
  unfold Accounted
  decide +kernel

end Reporter
end ArgusEdr.Fleet
