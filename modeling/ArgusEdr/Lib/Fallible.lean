import Mathlib

/-!
# Computations that can fail

What a successful run of a program in `Except` says about its steps: `bind_eq_ok` for a sequence,
`mapM_eq_ok` for a list, `foldlM_invariant` for a loop that carries a state. `KeyWise` is for tables
whose values are processed one by one. `Keeps` says that a part of the state is the same after every
run, failed or not.
-/

namespace ArgusEdr.Fallible

open List

variable {ε α β σ : Type} {x : Except ε α} {f : α → Except ε β} {l : List α} {R : α → β → Prop}

theorem bind_eq_ok {b : β} : (x >>= f) = .ok b ↔ ∃ a, x = .ok a ∧ f a = .ok b := by
  cases x with
  | error | ok => simp [bind, Except.bind]

theorem map_eq_ok {f : α → β} {b : β} (h : x.map f = .ok b) : ∃ a, x = .ok a ∧ f a = b := by
  cases x with
  | error => cases h
  | ok a => exact ⟨a, rfl, Except.ok.inj h⟩

theorem map_ne_error {f : α → β} {e : ε} (h : x ≠ .error e) : x.map f ≠ .error e := by
  cases x with
  | error => exact fun heq => h (by cases heq; rfl)
  | ok => nofun

theorem mapM_eq_ok {bs : List β} :
    l.mapM f = .ok bs ↔ List.Forall₂ (fun a b => f a = .ok b) l bs := by
  induction l generalizing bs with
  | nil => simp [pure, Except.pure, eq_comm]
  | cons a l ih =>
    rw [mapM_cons, bind_eq_ok, forall₂_cons_left_iff]
    constructor
    · rintro ⟨b, hb, hrest⟩
      obtain ⟨bs', hbs', hcons⟩ := bind_eq_ok.mp hrest
      cases hcons
      exact ⟨b, bs', hb, ih.mp hbs', rfl⟩
    · rintro ⟨b, bs', hb, hbs', rfl⟩
      exact ⟨b, hb, bind_eq_ok.mpr ⟨bs', ih.mpr hbs', rfl⟩⟩

theorem exists_mem_of_forall₂ {l' : List β} (h : List.Forall₂ R l l') {a : α} (ha : a ∈ l) :
    ∃ b ∈ l', R a b := by
  induction h with
  | nil => cases ha
  | @cons a' b l l' hb _ ih =>
    cases mem_cons.mp ha with
    | inl heq => exact ⟨b, mem_cons_self, heq ▸ hb⟩
    | inr hmem =>
      obtain ⟨b', hb', hrel⟩ := ih hmem
      exact ⟨b', mem_cons_of_mem b hb', hrel⟩

theorem exists_mapM_eq_ok : (∃ bs, l.mapM f = .ok bs) ↔ ∀ a ∈ l, ∃ b, f a = .ok b := by
  constructor
  · rintro ⟨bs, hbs⟩ a ha
    obtain ⟨b, -, hb⟩ := exists_mem_of_forall₂ (mapM_eq_ok.mp hbs) ha
    exact ⟨b, hb⟩
  · intro h
    induction l with
    | nil => exact ⟨[], rfl⟩
    | cons a l ih =>
      obtain ⟨⟨b, hb⟩, hl⟩ := forall_mem_cons.mp h
      obtain ⟨bs, hbs⟩ := ih hl
      exact ⟨b :: bs, mapM_eq_ok.mpr (.cons hb (mapM_eq_ok.mp hbs))⟩

theorem foldlM_invariant {inv : σ → Prop} {f : σ → α → Except ε σ}
    (hstep : ∀ s a s', inv s → f s a = .ok s' → inv s') {s s' : σ} (hs : inv s)
    (h : l.foldlM f s = .ok s') : inv s' := by
  induction l generalizing s with
  | nil =>
    cases h
    exact hs
  | cons a l ih =>
    rw [foldlM_cons, bind_eq_ok] at h
    obtain ⟨s₁, hs₁, hrest⟩ := h
    exact ih (hstep s a s₁ hs hs₁) hrest

/-- The entries of two tables have the same keys and related values, one by one. -/
def KeyWise {κ : Type} (R : α → β → Prop) : List (κ × α) → List (κ × β) → Prop :=
  List.Forall₂ fun a b => a.1 = b.1 ∧ R a.2 b.2

theorem KeyWise.map_fst {κ : Type} {l : List (κ × α)} {l' : List (κ × β)} (h : KeyWise R l l') :
    l'.map Prod.fst = l.map Prod.fst := by
  induction h with
  | nil => rfl
  | cons hab _ ih => rw [map_cons, map_cons, ih, hab.1]

theorem KeyWise.lookup {κ : Type} [BEq κ] {l : List (κ × α)} {l' : List (κ × β)}
    (h : KeyWise R l l') (k : κ) : Option.Rel R (l.lookup k) (l'.lookup k) := by
  induction h with
  | nil => exact .none
  | @cons a b l l' hab _ ih =>
    obtain ⟨ka, a⟩ := a
    obtain ⟨kb, b⟩ := b
    obtain ⟨rfl, hR⟩ : ka = kb ∧ R a b := hab
    rw [lookup_cons, lookup_cons]
    cases k == ka with
    | true => exact .some hR
    | false => exact ih

/-! ## With a state -/

section
variable {τ : Type}

/-- Whatever the program does, it leaves what `f` shows of the state as it was. -/
def Keeps (f : σ → τ) (act : ExceptT ε (StateM σ) α) : Prop :=
  ∀ s, f (act.run.run s).2 = f s

variable {f : σ → τ}

theorem Keeps.pure (a : α) : Keeps f (pure a : ExceptT ε (StateM σ) α) := fun _ => rfl

theorem Keeps.throw (err : ε) : Keeps f (throw err : ExceptT ε (StateM σ) α) := fun _ => rfl

theorem Keeps.get : Keeps f (get : ExceptT ε (StateM σ) σ) := fun _ => rfl

theorem Keeps.modify {g : σ → σ} (h : ∀ s, f (g s) = f s) :
    Keeps f (modify g : ExceptT ε (StateM σ) Unit) := h

variable {act : ExceptT ε (StateM σ) α} {next : α → ExceptT ε (StateM σ) β} {s' : σ}

theorem Keeps.bind (h : Keeps f act) (hnext : ∀ a, Keeps f (next a)) : Keeps f (act >>= next) := by
  intro s
  have hact := h s
  rw [ExceptT.run_bind, StateT.run_bind]
  generalize act.run.run s = result at hact ⊢
  obtain ⟨res, s'⟩ := result
  cases res with
  | error => exact hact
  | ok a => exact (hnext a s').trans hact

theorem run_get_bind (next : σ → ExceptT ε (StateM σ) β) (s : σ) :
    (get >>= next).run.run s = (next s).run.run s := rfl

theorem run_bind_ok {s : σ} {a : α} (h : act.run.run s = (.ok a, s')) :
    (act >>= next).run.run s = (next a).run.run s' := by
  rw [ExceptT.run_bind, StateT.run_bind, h]
  rfl

theorem run_bind_error {s : σ} {err : ε} (h : act.run.run s = (.error err, s')) :
    (act >>= next).run.run s = (.error err, s') := by
  rw [ExceptT.run_bind, StateT.run_bind, h]
  rfl

end

end ArgusEdr.Fallible
