import Mathlib

/-!
# Recursive-descent parsers

A parser reads the tokens that are left and returns a value with the tokens it did not read. It can end
with an error of its own, by reading past the last token, or by taking more steps than it was given.
`loop` repeats an operand as long as a separator follows; `chain` has an operand in front.

`Safe p post ts`: from `ts`, `p` neither reads past the end nor runs out of steps, and `post` holds of
what it returns. `Reads follow p ts a`: in front of any tokens with `follow`, `p` reads `ts` and returns
`a`. `Approx p q`: `q` gives what `p` gives, unless `p` ran out of steps.
-/

namespace ArgusEdr.Parsing

open List

/-- How a parser can end without a value. -/
inductive Halt (ε : Type) where
  | err (e : ε)
  | outOfRange
  | outOfFuel
deriving Repr, DecidableEq

abbrev Parser (τ ε α : Type) := StateT (List τ) (Except (Halt ε)) α

variable {τ ε α β γ : Type}

def peek : Parser τ ε τ
  | [] => .error .outOfRange
  | t :: ts => .ok (t, t :: ts)

def next : Parser τ ε τ
  | [] => .error .outOfRange
  | t :: ts => .ok (t, ts)

def fail (e : ε) : Parser τ ε α := fun _ => .error (.err e)

def outOfFuel : Parser τ ε α := fun _ => .error .outOfFuel

/-- Runs the body as long as the test says so, for less than the given number of rounds. -/
def repeatWhile (test : Parser τ ε Bool) (body : α → Parser τ ε α) : ℕ → α → Parser τ ε α
  | 0, _ => outOfFuel
  | n + 1, a => do
    if ← test then
      let a' ← body a
      repeatWhile test body n a'
    else pure a

/-- As long as a separator follows, an operand, which is added to what there is. A round reads
a token at least, so there are no more rounds than tokens. -/
def loop (separator : Parser τ ε Bool) (operand : Parser τ ε α) (add : β → α → β) (acc : β) :
    Parser τ ε β := fun ts =>
  repeatWhile separator (fun acc => do return add acc (← operand)) (ts.length + 1) acc ts

def chain (separator : Parser τ ε Bool) (operand : Parser τ ε α) (start : α → β)
    (add : β → α → β) : Parser τ ε β := do
  let first ← operand
  loop separator operand add (start first)

/-! ## Running -/

@[simp] theorem run_peek_cons (t : τ) (ts : List τ) :
    (peek : Parser τ ε τ).run (t :: ts) = .ok (t, t :: ts) := rfl

@[simp] theorem run_next_cons (t : τ) (ts : List τ) :
    (next : Parser τ ε τ).run (t :: ts) = .ok (t, ts) := rfl

variable {p q operand operand' : Parser τ ε α} {f : α → Parser τ ε β} {ts : List τ}
  {separator : Parser τ ε Bool}

theorem run_bind_ok {rest : List τ} {a : α} (h : p.run ts = .ok (a, rest)) :
    (p >>= f).run ts = (f a).run rest := by
  rw [StateT.run_bind, h]
  rfl

/-! ## Parsers that stay inside their tokens -/

/-- From `ts`, the parser ends with an error of its own or with a value that has `post`. -/
def Safe (p : Parser τ ε α) (post : α → List τ → Prop) (ts : List τ) : Prop :=
  match p.run ts with
  | .ok (a, rest) => post a rest
  | .error (.err _) => True
  | .error .outOfRange => False
  | .error .outOfFuel => False

section
variable {post : α → List τ → Prop} {ts : List τ}

theorem safe_iff_of_run {a : α} {rest : List τ} (h : p.run ts = .ok (a, rest)) :
    Safe p post ts ↔ post a rest := by
  unfold Safe
  rw [h]

theorem safe_pure {a : α} : Safe (pure a : Parser τ ε α) post ts ↔ post a ts := Iff.rfl

theorem safe_fail {e : ε} : Safe (fail e : Parser τ ε α) post ts := trivial

theorem safe_bind {post : β → List τ → Prop} :
    Safe (p >>= f) post ts ↔ Safe p (fun a rest => Safe (f a) post rest) ts := by
  unfold Safe
  rw [StateT.run_bind]
  cases h : p.run ts with
  | ok => rfl
  | error halt => cases halt <;> rfl

theorem safe_peek_cons {t : τ} {post : τ → List τ → Prop} :
    Safe (peek : Parser τ ε τ) post (t :: ts) ↔ post t (t :: ts) := Iff.rfl

theorem safe_next_cons {t : τ} {post : τ → List τ → Prop} :
    Safe (next : Parser τ ε τ) post (t :: ts) ↔ post t ts := Iff.rfl

theorem Safe.mono {post' : α → List τ → Prop} (h : Safe p post ts)
    (himp : ∀ a rest, post a rest → post' a rest) : Safe p post' ts := by
  unfold Safe at h ⊢
  split at h
  · exact himp _ _ h
  · trivial
  all_goals exact h

variable {acc : β} {add : β → α → β} {good' : α → Prop} {good : β → Prop} {start : α → β}

/-- A loop keeps what its body keeps, if each round reads a token at least. -/
theorem safe_repeatWhile {test : Parser τ ε Bool} {body : β → Parser τ ε β}
    {inv : β → List τ → Prop}
    (hround : ∀ acc ts, inv acc ts → Safe test (fun again rest =>
      if again then Safe (body acc) (fun acc' rest' => inv acc' rest' ∧ rest'.length < ts.length) rest
      else rest = ts) ts)
    {n : ℕ} (hn : ts.length < n) (h : inv acc ts) :
    Safe (repeatWhile test body n acc) (fun acc' rest => inv acc' rest ∧ rest.length ≤ ts.length)
      ts := by
  induction n generalizing acc ts with
  | zero => exact absurd hn (Nat.not_lt_zero _)
  | succ n ih =>
    rw [repeatWhile, safe_bind]
    refine (hround acc ts h).mono fun again rest hagain => ?_
    cases again with
    | false =>
      have hrest : rest = ts := hagain
      rw [hrest]
      exact ⟨h, le_rfl⟩
    | true =>
      show Safe (body acc >>= _) _ rest
      rw [safe_bind]
      have hbody : Safe (body acc) _ rest := hagain
      refine hbody.mono fun acc' rest' hacc' => ?_
      refine (ih (by omega) hacc'.1).mono fun acc'' rest'' hacc'' => ⟨hacc''.1, ?_⟩
      omega

/-- A loop keeps `inv` of the tokens and `good` of its value, if its separators and operands
keep `inv` and read a token at least, and its operands have `good'`. -/
theorem safe_loop (inv : List τ → Prop)
    (hseparator : ∀ ts, inv ts → Safe separator (fun again rest =>
      if again then inv rest ∧ rest.length < ts.length else rest = ts) ts)
    (hoperand : ∀ ts, inv ts →
      Safe operand (fun a rest => inv rest ∧ rest.length < ts.length ∧ good' a) ts)
    (hadd : ∀ b a, good b → good' a → good (add b a)) (hacc : good acc) (h : inv ts) :
    Safe (loop separator operand add acc)
      (fun b rest => inv rest ∧ rest.length ≤ ts.length ∧ good b) ts := by
  have hround : ∀ acc ts, inv ts ∧ good acc → Safe separator (fun again rest =>
      if again then Safe (operand >>= fun a => pure (add acc a))
        (fun acc' rest' => (inv rest' ∧ good acc') ∧ rest'.length < ts.length) rest
      else rest = ts) ts := by
    intro acc ts hacc
    refine (hseparator ts hacc.1).mono fun again rest hagain => ?_
    cases again with
    | false => exact hagain
    | true =>
      obtain ⟨hinv, hlen⟩ : inv rest ∧ rest.length < ts.length := hagain
      show Safe (operand >>= fun a => pure (add acc a)) _ rest
      rw [safe_bind]
      refine (hoperand rest hinv).mono fun a rest' ha => ?_
      exact ⟨⟨ha.1, hadd acc a hacc.2 ha.2.2⟩, ha.2.1.trans hlen⟩
  have hloop := safe_repeatWhile hround (Nat.lt_succ_self ts.length) ⟨h, hacc⟩
  exact Safe.mono hloop fun b rest hb => ⟨hb.1.1, hb.2, hb.1.2⟩

theorem safe_chain (inv : List τ → Prop)
    (hseparator : ∀ ts, inv ts → Safe separator (fun again rest =>
      if again then inv rest ∧ rest.length < ts.length else rest = ts) ts)
    (hoperand : ∀ ts, inv ts →
      Safe operand (fun a rest => inv rest ∧ rest.length < ts.length ∧ good' a) ts)
    (hstart : ∀ a, good' a → good (start a)) (hadd : ∀ b a, good b → good' a → good (add b a))
    (h : inv ts) :
    Safe (chain separator operand start add)
      (fun b rest => inv rest ∧ rest.length < ts.length ∧ good b) ts := by
  unfold chain
  rw [safe_bind]
  refine (hoperand ts h).mono fun first rest hfirst => ?_
  obtain ⟨hinv, hlen, hgood⟩ := hfirst
  refine (safe_loop inv hseparator hoperand hadd (hstart first hgood) hinv).mono
    fun b rest' hb => ?_
  exact ⟨hb.1, hb.2.1.trans_lt hlen, hb.2.2⟩

/-- The parser took the tokens of a piece off `ts`, and left `rest`. -/
def Took (piece : List τ → α → Prop) (ts : List τ) (a : α) (rest : List τ) : Prop :=
  ∃ us, us ≠ [] ∧ piece us a ∧ ts = us ++ rest

/-- What a chain returns was written as operands with separators between them, if its operands
return what was written. -/
theorem safe_chain_took {inv : List τ → Prop}
    {between : List τ → Prop}
    {piece : List τ → α → Prop} {pieces : List τ → β → Prop}
    (hinv : ∀ us rest, inv (us ++ rest) → inv rest)
    (hseparator : ∀ ts, inv ts → Safe separator (fun again rest =>
      if again then Took (fun s _ => between s) ts again rest else rest = ts) ts)
    (hoperand : ∀ ts, inv ts → Safe operand (Took piece ts) ts)
    (hstart : ∀ us a, piece us a → pieces us (start a))
    (hadd : ∀ us b s vs a, pieces us b → between s → piece vs a →
      pieces (us ++ (s ++ vs)) (add b a))
    (h : inv ts) : Safe (chain separator operand start add) (Took pieces ts) ts := by
  -- between two rounds: what was taken so far is written as what was collected so far
  have hround : ∀ acc rest, inv rest ∧ Took pieces ts acc rest →
      Safe separator (fun again rest' =>
        if again then Safe (operand >>= fun a => pure (add acc a))
          (fun acc' rest'' => (inv rest'' ∧ Took pieces ts acc' rest'') ∧
            rest''.length < rest.length) rest'
        else rest' = rest) rest := by
    rintro acc rest ⟨hrest, us, hne, hus, hts⟩
    refine (hseparator rest hrest).mono fun again rest' hagain => ?_
    cases again with
    | false => exact hagain
    | true =>
      obtain ⟨s, hs, hbetween, rfl⟩ := hagain
      show Safe (operand >>= fun a => pure (add acc a)) _ rest'
      rw [safe_bind]
      have hrest' := hinv s rest' hrest
      refine (hoperand rest' hrest').mono fun a rest'' ha => ?_
      obtain ⟨vs, hvs, hpiece, rfl⟩ := ha
      refine ⟨⟨hinv vs rest'' hrest', us ++ (s ++ vs), ?_, ?_, ?_⟩, ?_⟩
      · exact append_ne_nil_of_left_ne_nil hne _
      · exact hadd us acc s vs a hus hbetween hpiece
      · rw [hts, append_assoc, append_assoc]
      · have := length_pos_iff.mpr hs
        simp only [length_append]
        omega
  unfold chain
  rw [safe_bind]
  refine (hoperand ts h).mono fun first rest hfirst => ?_
  obtain ⟨us, hne, hpiece, hts⟩ := hfirst
  have hrest : inv rest := hinv us rest (hts ▸ h)
  have hloop := safe_repeatWhile hround (Nat.lt_succ_self rest.length)
    ⟨hrest, us, hne, hstart us first hpiece, hts⟩
  exact Safe.mono hloop fun b rest' hb => hb.1.2

end

/-! ## What a parser reads -/

/-- In front of tokens with `follow`, the parser reads `ts` and returns `a`. -/
def Reads (follow : List τ → Prop) (p : Parser τ ε α) (ts : List τ) (a : α) : Prop :=
  ∀ rest, follow rest → p.run (ts ++ rest) = .ok (a, rest)

section
variable {follow : List τ → Prop} {separator : Parser τ ε Bool} {operand : Parser τ ε α}

/-- The rounds of a loop: a separator, after which an operand can end, and an operand. -/
inductive Rounds (follow : List τ → Prop) (separator : Parser τ ε Bool) (operand : Parser τ ε α) :
    List τ → List α → Prop
  | nil : Rounds follow separator operand [] []
  | cons {s ts us : List τ} {a : α} {as : List α} (hs : s ≠ [])
      (hseparator : Reads (fun _ => True) separator s true) (hfollow : ∀ rest, follow (s ++ rest))
      (hoperand : Reads follow operand ts a) (hrest : Rounds follow separator operand us as) :
      Rounds follow separator operand (s ++ (ts ++ us)) (a :: as)

/-- What ends a loop: tokens an operand can end at and no separator starts with. -/
def Stops (follow : List τ → Prop) (separator : Parser τ ε Bool) (rest : List τ) : Prop :=
  follow rest ∧ separator.run rest = .ok (false, rest)

variable {us rest : List τ} {as : List α}

theorem Rounds.follow_append (h : Rounds follow separator operand us as)
    (hrest : Stops follow separator rest) : follow (us ++ rest) := by
  cases h with
  | nil => exact hrest.1
  | cons _ _ hfollow _ _ =>
    rw [append_assoc]
    exact hfollow _

theorem Rounds.concat (h : Rounds follow separator operand us as) {s : List τ} {a : α} (hs : s ≠ [])
    (hseparator : Reads (fun _ => True) separator s true) (hfollow : ∀ rest, follow (s ++ rest))
    (hoperand : Reads follow operand ts a) :
    Rounds follow separator operand (us ++ (s ++ ts)) (as ++ [a]) := by
  induction h with
  | nil =>
    have hlast := Rounds.cons hs hseparator hfollow hoperand .nil
    rwa [append_nil] at hlast
  | cons hs' hseparator' hfollow' hoperand' _ ih =>
    have hrest := Rounds.cons hs' hseparator' hfollow' hoperand' ih
    rwa [append_assoc, append_assoc]

theorem run_repeatWhile {add : β → α → β} (h : Rounds follow separator operand us as)
    (hrest : Stops follow separator rest) {n : ℕ} (hn : us.length < n) (acc : β) :
    (repeatWhile separator (fun acc => do return add acc (← operand)) n acc).run (us ++ rest) =
      .ok (as.foldl add acc, rest) := by
  induction h generalizing n acc with
  | nil =>
    obtain ⟨n, rfl⟩ := Nat.exists_eq_add_of_lt hn
    rw [repeatWhile, nil_append, run_bind_ok hrest.2]
    rfl
  | @cons s ts us a as hs hseparator hfollow hoperand hrounds ih =>
    obtain ⟨m, rfl⟩ : ∃ m, n = m + 1 := ⟨n - 1, by omega⟩
    have hlen : us.length < m := by
      have := length_pos_iff.mpr hs
      simp only [length_append] at hn
      omega
    rw [repeatWhile, append_assoc, run_bind_ok (hseparator _ trivial)]
    show ((operand >>= fun a => pure (add acc a)) >>= _).run _ = _
    rw [append_assoc, bind_assoc, run_bind_ok (hoperand _ (hrounds.follow_append hrest)), pure_bind]
    exact ih hlen (add acc a)

theorem Rounds.loop (h : Rounds follow separator operand us as) (add : β → α → β) (acc : β) :
    Reads (Stops follow separator) (loop separator operand add acc) us (as.foldl add acc) := by
  intro rest hrest
  have hlen : us.length < (us ++ rest).length + 1 := by
    rw [length_append]
    omega
  exact run_repeatWhile h hrest hlen acc

theorem foldl_concat (l acc : List α) : l.foldl (fun as a => as ++ [a]) acc = acc ++ l := by
  induction l generalizing acc with
  | nil => simp
  | cons a l ih => rw [foldl_cons, ih, append_assoc, singleton_append]

theorem Reads.chain {a : α} (hfirst : Reads follow operand ts a)
    (h : Rounds follow separator operand us as) (start : α → β) (add : β → α → β) :
    Reads (Stops follow separator) (chain separator operand start add) (ts ++ us)
      (as.foldl add (start a)) := by
  intro rest hrest
  rw [Parsing.chain, append_assoc, run_bind_ok (hfirst _ (h.follow_append hrest))]
  exact h.loop add (start a) rest hrest

end

/-! ## More steps -/

/-- What `p` gives within its steps, `q` gives too. -/
def Approx (p q : Parser τ ε α) : Prop :=
  ∀ ts, p.run ts = .error .outOfFuel ∨ q.run ts = p.run ts

theorem Approx.refl (p : Parser τ ε α) : Approx p p := fun _ => .inr rfl

theorem approx_outOfFuel (q : Parser τ ε α) : Approx outOfFuel q := fun _ => .inl rfl

theorem Approx.bind {g : α → Parser τ ε β} (hp : Approx p q) (hf : ∀ a, Approx (f a) (g a)) :
    Approx (p >>= f) (q >>= g) := by
  intro ts
  rw [StateT.run_bind, StateT.run_bind]
  rcases hp ts with hout | heq
  · left
    rw [hout]
    rfl
  · rw [heq]
    cases p.run ts with
    | error => exact .inr rfl
    | ok r => exact hf r.1 r.2

theorem Approx.ite {c : Prop} [Decidable c] {p' q' : Parser τ ε α} (h : Approx p q)
    (h' : Approx p' q') : Approx (if c then p else p') (if c then q else q') := by
  split
  · exact h
  · exact h'

theorem Approx.repeatWhile {test : Parser τ ε Bool} {body body' : α → Parser τ ε α}
    (h : ∀ a, Approx (body a) (body' a)) (n : ℕ) (a : α) :
    Approx (repeatWhile test body n a) (repeatWhile test body' n a) := by
  induction n generalizing a with
  | zero => exact approx_outOfFuel _
  | succ n ih =>
    refine Approx.bind (.refl test) fun again => .ite ?_ (.refl _)
    exact (h a).bind ih

theorem Approx.loop (h : Approx operand operand') (add : β → α → β) (acc : β) :
    Approx (loop separator operand add acc) (loop separator operand' add acc) := by
  intro ts
  have hbody : ∀ acc, Approx (do return add acc (← operand)) (do return add acc (← operand')) :=
    fun acc => h.bind fun a => .refl _
  exact Approx.repeatWhile hbody (ts.length + 1) acc ts

theorem Approx.chain (h : Approx operand operand') (start : α → β) (add : β → α → β) :
    Approx (chain separator operand start add) (chain separator operand' start add) :=
  h.bind fun first => h.loop add (start first)

theorem Approx.run_eq (h : Approx p q) {post : α → List τ → Prop} (hsafe : Safe p post ts) :
    q.run ts = p.run ts := by
  rcases h ts with hout | heq
  · unfold Safe at hsafe
    rw [hout] at hsafe
    exact hsafe.elim
  · exact heq

end ArgusEdr.Parsing
