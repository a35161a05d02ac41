import ArgusEdr.Lib.Reading

/-!
# Parsers that stay inside their text

`Safe valid p post c`: from the cursor `c`, the parser ends with an error of its own or with a value
that has `post`. It never runs out of steps, and cuts out of range only if `valid` does not hold.

`Inside src valid n c` is what parsers keep: the text is the same, the position is not past the end as
long as `valid` holds, and less than `n` characters are left, which is what a loop ends by.
-/

namespace ArgusEdr.Reading

open Parsing (Halt)

variable {τ ε α β σ : Type}

section
variable (src : List τ) (valid : Prop)

structure Inside (n : ℕ) (c : Cursor τ) : Prop where
  src_eq : c.src = src
  pos_le : valid → c.pos ≤ src.length
  left : c.rest.length < n

def Safe (p : Reader τ ε α) (post : α → Cursor τ → Prop) (c : Cursor τ) : Prop :=
  match p.run c with
  | .ok (a, c') => post a c'
  | .error (.err _) => True
  | .error .outOfRange => ¬valid
  | .error .outOfFuel => False

end

variable {src : List τ} {valid : Prop} {n m : ℕ} {c : Cursor τ}

/-! ## Cursors -/

theorem Cursor.rest_advance (c : Cursor τ) (k : ℕ) : (c.advance k).rest = c.rest.drop k := by
  rw [rest, rest, List.drop_drop]
  rfl

theorem Cursor.length_rest (c : Cursor τ) : c.rest.length = c.src.length - c.pos :=
  List.length_drop

theorem inside_start (src : List τ) (valid : Prop) :
    Inside src valid (src.length + 1) { src := src } where
  src_eq := rfl
  pos_le := fun _ => Nat.zero_le _
  left := Nat.lt_succ_self _

theorem Inside.mono (h : Inside src valid n c) (hle : n ≤ m) : Inside src valid m c where
  src_eq := h.src_eq
  pos_le := h.pos_le
  left := h.left.trans_le hle

theorem Inside.weaken (h : Inside src valid n c) : Inside src valid (n + 1) c :=
  h.mono (Nat.le_succ n)

theorem Inside.exists_succ (h : Inside src valid n c) : ∃ m, n = m + 1 :=
  Nat.exists_eq_succ_of_ne_zero (Nat.ne_zero_of_lt h.left)

theorem Inside.keep (h : Inside src valid n c) {k : ℕ} (hk : valid → k ≤ c.rest.length) :
    Inside src valid n (c.advance k) where
  src_eq := h.src_eq
  pos_le := by
    intro hvalid
    have hpos := h.pos_le hvalid
    have hlen := hk hvalid
    rw [c.length_rest, h.src_eq] at hlen
    show c.pos + k ≤ src.length
    omega
  left := by
    rw [c.rest_advance, List.length_drop]
    have := h.left
    omega

theorem Inside.pass (h : Inside src valid (n + 1) c) {k : ℕ} (hpos : 0 < k)
    (hk : k ≤ c.rest.length) : Inside src valid n (c.advance k) where
  src_eq := h.src_eq
  pos_le := (h.keep fun _ => hk).pos_le
  left := by
    rw [c.rest_advance, List.length_drop]
    have := h.left
    omega

theorem runLength_le (test : List τ → Bool) (text : List τ) :
    runLength test text ≤ text.length := by
  induction text with
  | nil => exact le_rfl
  | cons t rest ih =>
    rw [runLength]
    split
    · exact Nat.succ_le_succ ih
    · exact Nat.zero_le _

/-! ## Rules -/

section
variable {post : α → Cursor τ → Prop}

theorem safe_pure {a : α} : Safe valid (pure a : Reader τ ε α) post c ↔ post a c := Iff.rfl

variable {p : Reader τ ε α} {f : α → Reader τ ε β} {c' : Cursor τ}

theorem safe_bind {post : β → Cursor τ → Prop} :
    Safe valid (p >>= f) post c ↔ Safe valid p (fun a c' => Safe valid (f a) post c') c := by
  unfold Safe
  rw [StateT.run_bind]
  cases h : p.run c with
  | ok => rfl
  | error halt => cases halt <;> rfl

theorem Safe.mono {post' : α → Cursor τ → Prop} (h : Safe valid p post c)
    (himp : ∀ a c', post a c' → post' a c') : Safe valid p post' c := by
  unfold Safe at h ⊢
  split at h
  · exact himp _ _ h
  · trivial
  all_goals exact h

theorem Safe.bind {post' : β → Cursor τ → Prop} (h : Safe valid p post c)
    (hf : ∀ a c', post a c' → Safe valid (f a) post' c') : Safe valid (p >>= f) post' c :=
  safe_bind.mpr (h.mono hf)

theorem Safe.of_run_eq {q : Reader τ ε α} (h : Safe valid q post c) (heq : p.run c = q.run c) :
    Safe valid p post c := by
  unfold Safe at h ⊢
  rwa [heq]

theorem Safe.post_of_run (h : Safe valid p post c) {a : α} (hrun : p.run c = .ok (a, c')) :
    post a c' := by
  unfold Safe at h
  rw [hrun] at h
  exact h

theorem safe_tell {post : ℕ → Cursor τ → Prop} :
    Safe valid (tell : Reader τ ε ℕ) post c ↔ post c.pos c := Iff.rfl

theorem safe_look {k : ℕ} {post : Option τ → Cursor τ → Prop} :
    Safe valid (look k : Reader τ ε (Option τ)) post c ↔ post c.rest[k]? c := Iff.rfl

theorem safe_skip {k : ℕ} {post : Unit → Cursor τ → Prop} :
    Safe valid (skip k : Reader τ ε Unit) post c ↔ post () (c.advance k) := Iff.rfl

theorem safe_skipBy {count : List τ → ℕ} {post : Unit → Cursor τ → Prop} :
    Safe valid (skipBy count : Reader τ ε Unit) post c ↔ post () (c.advance (count c.rest)) :=
  Iff.rfl

theorem safe_seek (hsrc : c'.src = c.src) {post : Unit → Cursor τ → Prop} :
    Safe valid (seek c.pos : Reader τ ε Unit) post c' ↔ post () c := by
  have hback : ({ c' with pos := c.pos } : Cursor τ) = c := by
    cases c
    cases hsrc
    rfl
  show post () { c' with pos := c.pos } ↔ _
  rw [hback]

theorem safe_cut (h : Inside src valid n c) {start : ℕ} {post : List τ → Cursor τ → Prop}
    (hpost : c.pos ≤ src.length → post ((src.take c.pos).drop start) c) :
    Safe valid (cut start : Reader τ ε (List τ)) post c := by
  have hrun : (cut start : Reader τ ε (List τ)).run c =
      if c.pos ≤ src.length then .ok ((src.take c.pos).drop start, c) else .error .outOfRange := by
    rw [← h.src_eq]
    rfl
  unfold Safe
  rw [hrun]
  by_cases hpos : c.pos ≤ src.length
  · rw [if_pos hpos]
    exact hpost hpos
  · rw [if_neg hpos]
    exact fun hvalid => hpos (h.pos_le hvalid)

end

/-! ## Loops -/

theorem safe_rounds {round : σ → Reader τ ε (σ ⊕ β)} {inv : σ → Prop} {good : β → Prop}
    (hround : ∀ k < n, ∀ s c, inv s → Inside src valid (k + 1) c →
      Safe valid (round s) (fun r c' => r.elim (fun s' => inv s' ∧ Inside src valid k c')
        (fun b => good b ∧ Inside src valid (k + 1) c')) c)
    {s : σ} (hs : inv s) (h : Inside src valid n c) :
    Safe valid (rounds round n s) (fun b c' => good b ∧ Inside src valid n c') c := by
  induction n generalizing s c with
  | zero => exact absurd h.left (Nat.not_lt_zero _)
  | succ n ih =>
    rw [rounds]
    refine (hround n (Nat.lt_succ_self n) s c hs h).bind fun r c' hr => ?_
    cases r with
    | inl =>
      have hrest := ih (fun k hk => hround k (Nat.lt_succ_of_lt hk)) hr.1 hr.2
      exact Safe.mono hrest fun b c'' hb => ⟨hb.1, hb.2.weaken⟩
    | inr => exact hr

theorem safe_forever {round : σ → Reader τ ε (σ ⊕ β)} (inv : σ → Prop) (good : β → Prop)
    (hround : ∀ k < n, ∀ s c, inv s → Inside src valid (k + 1) c →
      Safe valid (round s) (fun r c' => r.elim (fun s' => inv s' ∧ Inside src valid k c')
        (fun b => good b ∧ Inside src valid (k + 1) c')) c)
    {s : σ} (hs : inv s) (h : Inside src valid n c) :
    Safe valid (forever round s) (fun b c' => good b ∧ Inside src valid n c') c := by
  -- the loop is given one round more than there are characters left
  have hstart : Inside src valid (c.rest.length + 1) c := ⟨h.src_eq, h.pos_le, Nat.lt_succ_self _⟩
  have hloop := safe_rounds (fun k hk => hround k (hk.trans_le h.left)) hs hstart
  exact Safe.mono hloop fun b c' hb => ⟨hb.1, hb.2.mono h.left⟩

theorem safe_chain (good : α → Prop) {separator : Reader τ ε Bool} {operand : Reader τ ε α}
    {add : α → α → α} {limit : ℕ}
    (hseparator : ∀ k c, Inside src valid (k + 1) c →
      Safe valid separator (fun found c' => if found then Inside src valid k c' else c' = c) c)
    (hoperand : ∀ k c, k < limit → Inside src valid (k + 1) c →
      Safe valid operand (fun a c' => good a ∧ Inside src valid k c') c)
    (hadd : ∀ a b, good a → good b → good (add a b)) (hn : n < limit)
    (h : Inside src valid (n + 1) c) :
    Safe valid (chain separator operand add) (fun a c' => good a ∧ Inside src valid n c') c := by
  unfold chain
  refine (hoperand n c hn h).bind fun first c₁ hfirst => ?_
  refine safe_forever good good (fun k hk acc c₂ hacc hc₂ => ?_) hfirst.1 hfirst.2
  refine (hseparator k c₂ hc₂).bind fun found c₃ hfound => ?_
  cases found with
  | false =>
    have hstay : c₃ = c₂ := hfound
    rw [hstay]
    exact ⟨hacc, hc₂⟩
  | true =>
    have hc₃ : Inside src valid k c₃ := hfound
    obtain ⟨j, rfl⟩ := hc₃.exists_succ
    refine Safe.bind (hoperand j c₃ (by omega) hc₃) fun b c₄ hb => ?_
    exact ⟨hadd acc b hacc hb.1, hb.2.weaken⟩

end ArgusEdr.Reading
