import ArgusEdr.Lib.Pool
import ArgusEdr.Lib.Runs
import ArgusEdr.Model.Event

/-!
# The Loki sink (`internal/output/loki.go`)

`LokiSink` buffers documents. A flush takes the whole buffer under the lock and pushes it outside; it is
called by a writer that finds the buffer full, by a timer, by the loop's end after `Close`, and by
others. Writers, flushes, the loop and `Close` are goroutines that take their steps in any order, and
pushes end in any way. `advance` is the next step of a goroutine, with a record of the documents
enqueued, delivered and lost.
-/

namespace ArgusEdr.Output
namespace Loki

open Model (Time)
open Runs

/-- A timestamp and a line: what is pushed for a document. -/
abbrev Value := String × String

def lokiBatchSize : ℕ := 256

/-- `LokiSink`: the buffer, and whether the two channels have been closed. The last three fields are
the record. -/
structure LokiSink where
  values : List Value := []
  stop : Bool := false
  done : Bool := false
  enqueued : List Value := []
  delivered : List Value := []
  lost : List Value := []

/-- What a flush goes back to: its caller, the loop, or the end of the loop. -/
inductive Caller where
  | caller
  | ticker
  | stop
deriving DecidableEq

inductive Task (Doc : Type) where
  /-- in `enqueue`, before it takes the lock -/
  | enqueue (ts : Time) (doc : Doc)
  /-- in `Flush`, before it takes the lock -/
  | flush (back : Caller)
  /-- in `push` -/
  | push (values : List Value) (back : Caller)
  /-- in the `select` of `flushLoop` -/
  | select
  /-- at the end of `flushLoop`, before it closes `done` -/
  | leave
  /-- in `Close` -/
  | close
  /-- in `Close`, at `<-s.done` -/
  | await
  | returned
  | panicked

structure PushAnswers where
  marshal : Option Go.Error := none
  newRequest : Option Go.Error := none
  response : Except Go.Error ℕ := .ok 204

/-- What the environment decides in a step: the clock, the case of a `select` in which both are
ready, and the answers to a push. -/
structure Choice where
  now : Time := 0
  tick : Bool := true
  answers : PushAnswers := {}

def push (answers : PushAnswers) : Option Go.Error :=
  match answers.marshal with
  | some err => some err
  | none =>
    match answers.newRequest with
    | some err => some err
    | none =>
      match answers.response with
      | .error err => some err
      | .ok statusCode =>
        if statusCode ≥ 300 then
          some (.errorf "loki push returned status %d" [toString statusCode])
        else none

def Caller.resume {Doc : Type} : Caller → Task Doc
  | .caller => .returned
  | .ticker => .select
  | .stop => .leave

variable {Doc : Type} (marshal : Doc → Except Go.Error String)

def advance (choice : Choice) (s : LokiSink) : Task Doc → LokiSink × Task Doc
  | .enqueue ts doc =>
    match marshal doc with
    | .error _ => (s, .returned)
    | .ok line =>
      let ts := if ts = 0 then choice.now else ts
      let value := (toString (Time.unixNano ts), line)
      let values := s.values ++ [value]
      ({ s with values, enqueued := s.enqueued ++ [value] },
        if values.length ≥ lokiBatchSize then .flush .caller else .returned)
  | .flush back =>
    if s.values.length = 0 then (s, back.resume)
    else ({ s with values := [] }, .push s.values back)
  | .push values back =>
    match push choice.answers with
    | none => ({ s with delivered := s.delivered ++ values }, back.resume)
    | some _ => ({ s with lost := s.lost ++ values }, back.resume)
  | .select =>
    if choice.tick then (s, .flush .ticker)
    else if s.stop then (s, .flush .stop)
    else (s, .select)
  | .leave => ({ s with done := true }, .returned)
  | .close => if s.stop then (s, .panicked) else ({ s with stop := true }, .await)
  | .await => if s.done then (s, .returned) else (s, .await)
  | .returned => (s, .returned)
  | .panicked => (s, .panicked)

structure World (Doc : Type) where
  sink : LokiSink
  tasks : List (Task Doc)

inductive Event (Doc : Type) where
  | write (ts : Time) (doc : Doc)
  | flush
  | close
  | advance (n : ℕ) (choice : Choice)

def newLoki : World Doc where
  sink := {}
  tasks := [.select]

def World.spawn (w : World Doc) (t : Task Doc) : World Doc := { w with tasks := w.tasks ++ [t] }

def step (w : World Doc) : Event Doc → World Doc
  | .write ts doc => w.spawn (.enqueue ts doc)
  | .flush => w.spawn (.flush .caller)
  | .close => w.spawn .close
  | .advance n choice =>
    let next := Pool.advanceAt (advance marshal choice) w.sink w.tasks n
    ⟨next.1, next.2⟩

/-! ## Where the documents are -/

def Task.pushing : Task Doc → List Value
  | .push values _ => values
  | _ => []

def World.inPush (w : World Doc) : Multiset Value :=
  Pool.total (fun t => (t.pushing : Multiset Value)) w.tasks

/-- Each enqueued document is buffered, in a push in progress, or delivered; and in one of them. -/
def Accounted (w : World Doc) : Prop :=
  (w.sink.enqueued : Multiset Value) = w.sink.values + w.inPush + w.sink.delivered

def FailsPush (w : World Doc) (e : Event Doc) : Prop :=
  ∃ n choice values back, e = .advance n choice ∧ w.tasks[n]? = some (.push values back) ∧
    push choice.answers ≠ none

/-! ## What a step does -/

def Task.Idle (t : Task Doc) : Prop := ∀ values back, t ≠ .push values back

@[simp] theorem pushing_push (values : List Value) (back : Caller) :
    (Task.push values back : Task Doc).pushing = values := rfl

variable {t : Task Doc} {w : World Doc}

theorem Task.Idle.pushing_eq (h : t.Idle) : t.pushing = [] := by
  cases t with
  | push values back => exact absurd rfl (h values back)
  | _ => rfl

theorem idle_resume (back : Caller) : (back.resume : Task Doc).Idle := by
  cases back <;> simp [Caller.resume, Task.Idle]

/-- From the sink `s` to `s'` the buffer becomes `values`, and the other lists are added to the
record. -/
structure Moved (s s' : LokiSink) (values enqueued delivered lost : List Value) : Prop where
  values : s'.values = values
  enqueued : s'.enqueued = s.enqueued ++ enqueued
  delivered : s'.delivered = s.delivered ++ delivered
  lost : s'.lost = s.lost ++ lost

/-- A step moves no document, takes one in, hands the buffer to a push, or ends a push. -/
inductive Stepped (choice : Choice) (s s' : LokiSink) (t t' : Task Doc) : Prop
  | rest (ht : t.Idle) (ht' : t'.Idle) (h : Moved s s' s.values [] [] [])
  | takeIn (value : Value) (ht : t.Idle) (ht' : t'.Idle)
      (h : Moved s s' (s.values ++ [value]) [value] [] [])
  | handOver (back : Caller) (hne : s.values ≠ []) (ht : t.Idle) (ht' : t' = .push s.values back)
      (h : Moved s s' [] [] [] [])
  | deliver (values : List Value) (back : Caller) (ht : t = .push values back) (ht' : t'.Idle)
      (hpush : push choice.answers = none) (h : Moved s s' s.values [] values [])
  | lose (values : List Value) (back : Caller) (ht : t = .push values back) (ht' : t'.Idle)
      (hpush : push choice.answers ≠ none) (h : Moved s s' s.values [] [] values)

theorem moved_channels (s : LokiSink) (stop done : Bool) :
    Moved s { s with stop, done } s.values [] [] [] where
  values := rfl
  enqueued := (List.append_nil _).symm
  delivered := (List.append_nil _).symm
  lost := (List.append_nil _).symm

theorem stepped_advance (choice : Choice) (s : LokiSink) (t : Task Doc) :
    Stepped choice s (advance marshal choice s t).1 t (advance marshal choice s t).2 := by
  have hsame : Moved s s s.values [] [] [] := moved_channels s s.stop s.done
  cases t with
  | enqueue ts doc =>
    cases hmarshal : marshal doc with
    | error =>
      simp only [advance, hmarshal]
      exact .rest (by simp [Task.Idle]) (by simp [Task.Idle]) hsame
    | ok =>
      simp only [advance, hmarshal]
      refine .takeIn _ (by simp [Task.Idle]) ?_ ⟨rfl, rfl, by simp, by simp⟩
      split_ifs <;> simp [Task.Idle]
  | flush back =>
    by_cases hempty : s.values.length = 0
    · simp only [advance, if_pos hempty]
      exact .rest (by simp [Task.Idle]) (idle_resume back) hsame
    · simp only [advance, if_neg hempty]
      exact .handOver back (by simpa using hempty) (by simp [Task.Idle]) rfl
        ⟨rfl, by simp, by simp, by simp⟩
  | push values back =>
    cases hpush : push choice.answers with
    | none =>
      simp only [advance, hpush]
      exact .deliver values back rfl (idle_resume back) hpush ⟨rfl, by simp, rfl, by simp⟩
    | some =>
      simp only [advance, hpush]
      exact .lose values back rfl (idle_resume back) (by simp [hpush]) ⟨rfl, by simp, by simp, rfl⟩
  | select =>
    simp only [advance]
    split_ifs <;> exact .rest (by simp [Task.Idle]) (by simp [Task.Idle]) hsame
  | leave => exact .rest (by simp [Task.Idle]) (by simp [advance, Task.Idle]) (moved_channels s s.stop true)
  | close =>
    simp only [advance]
    split_ifs
    · exact .rest (by simp [Task.Idle]) (by simp [Task.Idle]) hsame
    · exact .rest (by simp [Task.Idle]) (by simp [Task.Idle]) (moved_channels s true s.done)
  | await =>
    simp only [advance]
    split_ifs <;> exact .rest (by simp [Task.Idle]) (by simp [Task.Idle]) hsame
  | returned | panicked => exact .rest (by simp [Task.Idle]) (by simp [advance, Task.Idle]) hsame

/-- The documents that are not in a push. -/
def LokiSink.held (s : LokiSink) : Multiset Value := s.values + s.delivered + s.lost

section
variable {choice : Choice} {s s' : LokiSink} {t t' : Task Doc}

theorem Stepped.balance (h : Stepped choice s s' t t') :
    s'.held + (t'.pushing : Multiset Value) + s.enqueued = s.held + t.pushing + s'.enqueued := by
  unfold LokiSink.held
  cases h with
  | rest ht ht' h =>
    simp [h.values, h.enqueued, h.delivered, h.lost, ht.pushing_eq, ht'.pushing_eq]
  | takeIn value ht ht' h =>
    simp only [h.values, h.enqueued, h.delivered, h.lost, ht.pushing_eq, ht'.pushing_eq,
      ← Multiset.coe_add, Multiset.coe_nil]
    abel
  | handOver back hne ht ht' h =>
    subst ht'
    simp only [h.values, h.enqueued, h.delivered, h.lost, ht.pushing_eq, pushing_push,
      ← Multiset.coe_add, Multiset.coe_nil]
    abel
  | deliver values back ht ht' hpush h | lose values back ht ht' hpush h =>
    subst ht
    simp only [h.values, h.enqueued, h.delivered, h.lost, ht'.pushing_eq, pushing_push,
      ← Multiset.coe_add, Multiset.coe_nil]
    abel

def Task.Loaded (t : Task Doc) : Prop := ∀ values back, t = .push values back → values ≠ []

theorem Task.Idle.loaded (h : t.Idle) : t.Loaded := fun values back heq => absurd heq (h values back)

theorem Stepped.loaded (h : Stepped choice s s' t t') : t'.Loaded := by
  cases h with
  | rest _ ht' | takeIn _ _ ht' => exact ht'.loaded
  | handOver back hne _ ht' =>
    subst ht'
    rintro _ _ ⟨⟩
    exact hne
  | deliver _ _ _ ht' | lose _ _ _ ht' => exact ht'.loaded

theorem Stepped.lost_eq_nil_iff (h : Stepped choice s s' t t') (ht : t.Loaded) (hs : s.lost = []) :
    s'.lost = [] ↔ ∀ values back, t = .push values back → push choice.answers = none := by
  cases h with
  | rest hidle _ h | takeIn _ hidle _ h | handOver _ _ hidle _ h =>
    exact iff_of_true (by simp [h.lost, hs]) fun values back heq => absurd heq (hidle values back)
  | deliver values back _ _ hpush h => exact iff_of_true (by simp [h.lost, hs]) fun _ _ _ => hpush
  | lose values back heq _ hpush h =>
    refine iff_of_false ?_ fun hall => hpush (hall values back heq)
    simpa [h.lost, hs] using ht values back heq

end

/-! ## Over a run -/

/-- The documents that are buffered, in a push, delivered or lost are the enqueued ones, and every push
has something to push. -/
structure Sound (w : World Doc) : Prop where
  balanced : w.sink.held + w.inPush = w.sink.enqueued
  loaded : ∀ t ∈ w.tasks, t.Loaded

variable {marshal}

theorem sound_newLoki : Sound (newLoki : World Doc) where
  balanced := rfl
  loaded := by simp [newLoki, Task.Loaded]

theorem Sound.spawn (h : Sound w) (ht : t.Idle) : Sound (w.spawn t) where
  balanced := by
    have hpush : (w.spawn t).inPush = w.inPush := by
      simp [World.spawn, World.inPush, Pool.total_concat, ht.pushing_eq]
    rw [hpush]
    exact h.balanced
  loaded := Pool.forall_mem_spawn h.loaded ht.loaded

theorem Sound.step (h : Sound w) (e : Event Doc) : Sound (step marshal w e) := by
  cases e with
  | write | flush | close => exact h.spawn (by simp [Task.Idle])
  | advance n choice =>
    constructor
    · exact Pool.advanceAt_balanced (h := LokiSink.held) (e := fun s => (s.enqueued : Multiset Value))
        (f := fun t => (t.pushing : Multiset Value))
        (fun t _ => (stepped_advance marshal choice w.sink t).balance) h.balanced
    · exact (Pool.advanceAt_invariant (I := fun _ => True) trivial h.loaded
        fun t _ _ => ⟨trivial, (stepped_advance marshal choice w.sink t).loaded⟩).2

theorem lost_step_iff (h : Sound w) (hw : w.sink.lost = []) (e : Event Doc) :
    (step marshal w e).sink.lost = [] ↔ ¬ FailsPush w e := by
  cases e with
  | write | flush | close => exact iff_of_true hw (by simp [FailsPush])
  | advance n choice =>
    cases ht : w.tasks[n]? with
    | none =>
      have hstay : (step marshal w (.advance n choice)).sink = w.sink := by
        simp [step, Pool.advanceAt, ht]
      rw [hstay]
      refine iff_of_true hw ?_
      rintro ⟨_, _, _, _, ⟨⟩, ht', -⟩
      rw [ht] at ht'
      cases ht'
    | some t =>
      have hmove : (step marshal w (.advance n choice)).sink = (advance marshal choice w.sink t).1 := by
        simp [step, Pool.advanceAt, ht]
      rw [hmove, (stepped_advance marshal choice w.sink t).lost_eq_nil_iff
        (h.loaded t (List.mem_of_getElem? ht)) hw]
      constructor
      · rintro hall ⟨_, _, values, back, ⟨⟩, ht', hfails⟩
        rw [ht] at ht'
        exact hfails (hall values back (Option.some.inj ht'))
      · intro hnot values back heq
        by_contra hfails
        exact hnot ⟨n, choice, values, back, rfl, heq ▸ ht, hfails⟩

theorem Sound.enqueued_eq (h : Sound w) :
    (w.sink.enqueued : Multiset Value) =
      w.sink.values + w.inPush + w.sink.delivered + w.sink.lost := by
  rw [← h.balanced, LokiSink.held]
  abel

theorem accounted_iff (h : Sound w) : Accounted w ↔ w.sink.lost = [] := by
  rw [Accounted, h.enqueued_eq, add_eq_left, Multiset.coe_eq_zero]

variable (marshal)

theorem sound_run (es : List (Event Doc)) : Sound (run (step marshal) newLoki es) :=
  run_invariant sound_newLoki (fun _ e h => h.step e) es

/-- In every run of the sink, the documents that are buffered, in a push in progress or delivered are
enqueued ones, none of them in two places. All enqueued documents are among them, at every moment,
exactly if no push of the run fails. -/
theorem documents_accounted (es : List (Event Doc)) :
    let w := run (step marshal) newLoki es
    w.sink.values + w.inPush + w.sink.delivered ≤ (w.sink.enqueued : Multiset Value) ∧
    ((∀ pre, pre <+: es → Accounted (run (step marshal) newLoki pre)) ↔
      AllSteps (step marshal) (fun w e => ¬ FailsPush w e) newLoki es) := by
  intro w
  constructor
  · rw [(sound_run marshal es).enqueued_eq]
    exact Multiset.le_add_right _ _
  · have hlost : ∀ pre, Accounted (run (step marshal) newLoki pre) ↔
        (run (step marshal) newLoki pre).sink.lost = [] := fun pre =>
      accounted_iff (sound_run marshal pre)
    simp only [hlost]
    have hsound : AllSteps (step marshal) (fun w _ => Sound w) newLoki es :=
      AllSteps.always.of_invariant sound_newLoki (fun _ e h _ => h.step e) (fun _ _ h _ => h)
    exact hsound.forall_prefix_iff (I := fun w : World Doc => w.sink.lost = []) rfl
      fun _ e hw h => lost_step_iff h hw e

/-- A document is enqueued and taken out of the buffer by a flush, and Loki answers with status 500. -/
theorem documents_lost_by_failed_push :
    let marshal : String → Except Go.Error String := .ok
    let failing : Choice := { answers := { response := .ok 500 } }
    ¬ Accounted (run (step marshal) newLoki [.write 1 "alert", .advance 1 {}, .flush, .advance 2 {},
      .advance 2 failing]) := by
  unfold Accounted
  decide +kernel

end Loki
end ArgusEdr.Output
