import ArgusEdr.Lib.Parsing

/-!
# Parsers without a lexer

A parser of this kind keeps the whole text and a position in it, which may be past the end, where
nothing can be cut out. `forever` is a loop that its body leaves; every round reads something or is the
last. `Reads follow p text a`: the parser reads `text`, wherever it stands and whatever with `follow`
comes after it, and returns `a`.
-/

namespace ArgusEdr.Reading

open List

open Parsing (Halt)

structure Cursor (τ : Type) where
  src : List τ
  pos : ℕ := 0

variable {τ ε α β σ : Type}

namespace Cursor

def rest (c : Cursor τ) : List τ := c.src.drop c.pos

def advance (c : Cursor τ) (n : ℕ) : Cursor τ := { c with pos := c.pos + n }

def between (before after : List τ) : Cursor τ := ⟨before ++ after, before.length⟩

@[simp] theorem pos_between (before after : List τ) :
    (between before after).pos = before.length := rfl

@[simp] theorem rest_between (before after : List τ) : (between before after).rest = after :=
  drop_left

theorem advance_between (before text rest : List τ) :
    (between before (text ++ rest)).advance text.length = between (before ++ text) rest := by
  simp [between, advance]

end Cursor

open Cursor

abbrev Reader (τ ε α : Type) := StateT (Cursor τ) (Except (Halt ε)) α

def tell : Reader τ ε ℕ := fun c => .ok (c.pos, c)

def seek (pos : ℕ) : Reader τ ε Unit := fun c => .ok ((), { c with pos })

/-- The character so many places ahead, if there is one. -/
def look (k : ℕ) : Reader τ ε (Option τ) := fun c => .ok (c.rest[k]?, c)

def skip (n : ℕ) : Reader τ ε Unit := fun c => .ok ((), c.advance n)

/-- Skips as many characters as `count` says of what is ahead. -/
def skipBy (count : List τ → ℕ) : Reader τ ε Unit := fun c => .ok ((), c.advance (count c.rest))

def cut (start : ℕ) : Reader τ ε (List τ) := fun c =>
  if c.pos ≤ c.src.length then .ok ((c.src.take c.pos).drop start, c) else .error .outOfRange

/-- How many characters a loop passes that goes on as long as `test` holds of what is ahead. -/
def runLength (test : List τ → Bool) : List τ → ℕ
  | [] => 0
  | t :: ts => if test (t :: ts) then runLength test ts + 1 else 0

/-- Less than the given number of rounds, until one of them has a result. -/
def rounds (round : σ → Reader τ ε (σ ⊕ β)) : ℕ → σ → Reader τ ε β
  | 0, _ => fun _ => .error .outOfFuel
  | n + 1, s => do
    match ← round s with
    | .inl s' => rounds round n s'
    | .inr b => pure b

def forever (round : σ → Reader τ ε (σ ⊕ β)) (s : σ) : Reader τ ε β := fun c =>
  rounds round (c.rest.length + 1) s c

def chain (separator : Reader τ ε Bool) (operand : Reader τ ε α) (add : α → α → α) :
    Reader τ ε α := do
  let first ← operand
  forever
    (fun acc => do
      if ← separator then return .inl (add acc (← operand))
      else return .inr acc)
    first

/-! ## Running -/

@[simp] theorem run_pure (a : α) (c : Cursor τ) :
    (pure a : Reader τ ε α).run c = .ok (a, c) := rfl

variable {p : Reader τ ε α} {f : α → Reader τ ε β} {c c' : Cursor τ} {halt : Halt ε} {text : List τ}
  {round : σ → Reader τ ε (σ ⊕ β)} {s : σ} {r : β × Cursor τ}

theorem run_bind_ok {a : α} (h : p.run c = .ok (a, c')) : (p >>= f).run c = (f a).run c' := by
  rw [StateT.run_bind, h]
  rfl

theorem run_bind_error (h : p.run c = .error halt) : (p >>= f).run c = .error halt := by
  rw [StateT.run_bind, h]
  rfl

theorem run_tell (before after : List τ) :
    (tell : Reader τ ε ℕ).run (between before after) = .ok (before.length, between before after) :=
  rfl

theorem run_look (k : ℕ) (before after : List τ) :
    (look k : Reader τ ε (Option τ)).run (between before after) =
      .ok (after[k]?, between before after) := by
  show Except.ok ((between before after).rest[k]?, _) = _
  rw [rest_between]

theorem run_skip {n : ℕ} (h : text.length = n) (before rest : List τ) :
    (skip n : Reader τ ε Unit).run (between before (text ++ rest)) =
      .ok ((), between (before ++ text) rest) := by
  show Except.ok ((), (between before (text ++ rest)).advance n) = _
  rw [← h, advance_between]

theorem run_skip_one (before : List τ) (t : τ) (rest : List τ) :
    (skip 1 : Reader τ ε Unit).run (between before (t :: rest)) =
      .ok ((), between (before ++ [t]) rest) :=
  run_skip length_singleton before rest

theorem run_skipBy {count : List τ → ℕ} {rest : List τ} (h : count (text ++ rest) = text.length)
    (before : List τ) :
    (skipBy count : Reader τ ε Unit).run (between before (text ++ rest)) =
      .ok ((), between (before ++ text) rest) := by
  show Except.ok ((), (between before (text ++ rest)).advance _) = _
  rw [rest_between, h, advance_between]

theorem run_cut (before text rest : List τ) :
    (cut before.length : Reader τ ε (List τ)).run (between (before ++ text) rest) =
      .ok (text, between (before ++ text) rest) := by
  have hbound : (before ++ text).length ≤ ((before ++ text) ++ rest).length := by simp
  have hcut : (((before ++ text) ++ rest).take (before ++ text).length).drop before.length = text := by
    rw [take_left, drop_left]
  show (if (before ++ text).length ≤ ((before ++ text) ++ rest).length then _ else _) = _
  rw [if_pos hbound]
  exact congrArg (fun t => Except.ok (t, _)) hcut

theorem run_seek (before text rest : List τ) :
    (seek before.length : Reader τ ε Unit).run (between (before ++ text) rest) =
      .ok ((), between before (text ++ rest)) := by
  show Except.ok ((), (⟨(before ++ text) ++ rest, before.length⟩ : Cursor τ)) = _
  rw [append_assoc]
  rfl

/-! ## Loops -/

theorem rounds_mono {n m : ℕ} (h : (rounds round n s).run c = .ok r) (hle : n ≤ m) :
    (rounds round m s).run c = .ok r := by
  induction n generalizing m s c with
  | zero => cases h
  | succ n ih =>
    obtain ⟨m, rfl⟩ : ∃ m', m = m' + 1 := ⟨m - 1, by omega⟩
    rw [rounds, StateT.run_bind] at h ⊢
    cases hround : (round s).run c with
    | error =>
      rw [hround] at h
      cases h
    | ok result =>
      rw [hround] at h
      obtain ⟨s' | b, c'⟩ := result
      · exact ih h (by omega)
      · exact h

theorem run_forever_last {b : β} (h : (round s).run c = .ok (.inr b, c')) :
    (forever round s).run c = .ok (b, c') := by
  show (rounds round (c.rest.length + 1) s).run c = _
  rw [rounds, run_bind_ok h]
  rfl

theorem run_forever_error (h : (round s).run c = .error halt) :
    (forever round s).run c = .error halt := by
  show (rounds round (c.rest.length + 1) s).run c = _
  rw [rounds, run_bind_error h]

theorem run_forever_step {s' : σ} (h : (round s).run c = .ok (.inl s', c'))
    (hless : c'.rest.length < c.rest.length) (hrest : (forever round s').run c' = .ok r) :
    (forever round s).run c = .ok r := by
  show (rounds round (c.rest.length + 1) s).run c = _
  rw [rounds, run_bind_ok h]
  exact rounds_mono hrest hless

/-! ## What a parser reads -/

/-- In front of a text with `follow`, the parser reads `text` and returns `a`. -/
def Reads (follow : List τ → Prop) (p : Reader τ ε α) (text : List τ) (a : α) : Prop :=
  ∀ before rest, follow rest →
    p.run (between before (text ++ rest)) = .ok (a, between (before ++ text) rest)

section
variable {follow follow' : List τ → Prop} {text text' : List τ} {a : α} {b : β}

theorem Reads.mono (h : Reads follow p text a) (himp : ∀ rest, follow' rest → follow rest) :
    Reads follow' p text a :=
  fun before rest hrest => h before rest (himp rest hrest)

theorem Reads.bind (hp : Reads follow' p text a) (hf : Reads follow (f a) text' b)
    (hfollow : ∀ rest, follow rest → follow' (text' ++ rest)) :
    Reads follow (p >>= f) (text ++ text') b := by
  intro before rest hrest
  rw [append_assoc, run_bind_ok (hp before _ (hfollow rest hrest)), hf _ rest hrest,
    append_assoc]

theorem Reads.last (h : Reads follow (round s) text (.inr b)) :
    Reads follow (forever round s) text b :=
  fun before rest hrest => run_forever_last (h before rest hrest)

theorem Reads.step {s' : σ} (h : Reads follow' (round s) text (.inl s')) (hne : text ≠ [])
    (hrest : Reads follow (forever round s') text' b)
    (hfollow : ∀ rest, follow rest → follow' (text' ++ rest)) :
    Reads follow (forever round s) (text ++ text') b := by
  intro before rest hfol
  have hpos := length_pos_iff.mpr hne
  have hless : (text' ++ rest).length < (text ++ (text' ++ rest)).length := by
    simp only [length_append]
    omega
  rw [append_assoc]
  refine run_forever_step (h before _ (hfollow rest hfol)) (by simpa using hless) ?_
  rw [hrest _ rest hfol, append_assoc]

end

/-! ### Chains -/

section
variable {follow : List τ → Prop} {separator : Reader τ ε Bool} {operand : Reader τ ε α}

/-- The parser finds nothing here, and stays where it is. -/
def Declines (p : Reader τ ε Bool) (rest : List τ) : Prop :=
  ∀ before, p.run (between before rest) = .ok (false, between before rest)

inductive Rounds (follow : List τ → Prop) (separator : Reader τ ε Bool) (operand : Reader τ ε α) :
    List τ → List α → Prop
  | nil : Rounds follow separator operand [] []
  | cons {s t us : List τ} {a : α} {as : List α} (hs : s ≠ [])
      (hseparator : ∀ before rest, separator.run (between before (s ++ (t ++ rest))) =
        .ok (true, between (before ++ s) (t ++ rest)))
      (hfollow : ∀ rest, follow (s ++ (t ++ rest))) (hoperand : Reads follow operand t a)
      (hrest : Rounds follow separator operand us as) :
      Rounds follow separator operand (s ++ (t ++ us)) (a :: as)

variable {us : List τ} {as : List α}

theorem Rounds.append {vs : List τ} {bs : List α} (h : Rounds follow separator operand us as)
    (h' : Rounds follow separator operand vs bs) :
    Rounds follow separator operand (us ++ vs) (as ++ bs) := by
  induction h with
  | nil => exact h'
  | cons hs hseparator hfollow hoperand _ ih =>
    rw [append_assoc, append_assoc]
    exact .cons hs hseparator hfollow hoperand ih

theorem Rounds.follow_append (h : Rounds follow separator operand us as) {rest : List τ}
    (hrest : follow rest) : follow (us ++ rest) := by
  cases h with
  | nil => exact hrest
  | cons _ _ hfollow _ _ =>
    rw [append_assoc, append_assoc]
    exact hfollow _

theorem Rounds.reads (h : Rounds follow separator operand us as) (add : α → α → α) (acc : α) :
    Reads (fun rest => follow rest ∧ Declines separator rest)
      (forever
        (fun acc => do
          if ← separator then return .inl (add acc (← operand))
          else return .inr acc)
        acc)
      us (as.foldl add acc) := by
  induction h generalizing acc with
  | nil =>
    refine Reads.last fun before rest hrest => ?_
    rw [nil_append, run_bind_ok (hrest.2 before), append_nil]
    rfl
  | @cons s t us a as hs hseparator hfollow hoperand hrounds ih =>
    have hround : Reads follow
        (do if ← separator then return .inl (add acc (← operand)) else return .inr acc)
        (s ++ t) (.inl (add acc a) : α ⊕ α) := by
      intro before rest hrest
      rw [append_assoc, run_bind_ok (hseparator before rest)]
      show ((operand >>= fun b => pure (.inl (add acc b))) : Reader τ ε (α ⊕ α)).run _ = _
      rw [run_bind_ok (hoperand _ rest hrest), append_assoc]
      rfl
    rw [← append_assoc]
    exact hround.step (by simp [hs]) (ih (add acc a)) fun rest hrest =>
      hrounds.follow_append hrest.1

theorem Reads.chain {t : List τ} {a : α} (hfirst : Reads follow operand t a)
    (h : Rounds follow separator operand us as) (add : α → α → α) :
    Reads (fun rest => follow rest ∧ Declines separator rest) (chain separator operand add)
      (t ++ us) (as.foldl add a) :=
  hfirst.bind (h.reads add a) fun _ hrest => h.follow_append hrest.1

end

end ArgusEdr.Reading
