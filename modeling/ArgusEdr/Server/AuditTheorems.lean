import ArgusEdr.Server.Audit

/-!
# What an accepted audit chain says

`verifyFrom_eq_ok_iff` is what the verifier accepts: a hash-linked log, with signatures if there is
a key. Nothing keeps the separator of the hashed fields out of the texts that come with a request
(`records_agree_iff`), and each life of the server starts a chain of its own
(`auditFile_verifies_iff`).
-/

namespace ArgusEdr.Audit

open List

open Entry (hash sealed)
open Go (Bytes)
open HashChain (Linked tip)

variable {env : Environment} {key key' : Bytes}

theorem verifyFrom_eq_ok_iff {prev : String} {entries : List Entry} :
    verifyFrom env key prev entries = .ok () ↔
      Linked Entry.prevHash hash (Entry.computeHash env) prev entries ∧
        ∀ e ∈ entries, 0 < key.length → e.sign env key = e.sig := by
  induction entries generalizing prev with
  | nil => simp [verifyFrom, Linked]
  | cons e entries ih =>
    rw [forall_mem_cons, Linked, verifyFrom]
    by_cases hprev : e.prevHash = prev
    · by_cases hhash : e.computeHash env = e.hash
      · by_cases hsig : 0 < key.length → e.sign env key = e.sig
        · have hsig' : ¬(0 < key.length ∧ e.sign env key ≠ e.sig) := fun h => h.2 (hsig h.1)
          rw [if_neg (not_not.mpr hprev), if_neg (not_not.mpr hhash), if_neg hsig', ih]
          tauto
        · rw [if_neg (not_not.mpr hprev), if_neg (not_not.mpr hhash),
            if_pos (Classical.not_imp.mp hsig)]
          simp [hsig]
      · rw [if_neg (not_not.mpr hprev), if_pos hhash]
        simp [hhash]
    · rw [if_pos hprev]
      simp [hprev]

/-! ## The hashed text -/

section Canonical

theorem toList_canonical (e : Entry) :
    (e.canonical env).toList =
      [unitSeparator].intercalate ((e.contents env).map String.toList) ++
        unitSeparator :: e.prevHash.toList := by
  rw [Entry.canonical, String.toList_intercalate, String.toList_singleton, map_append]
  exact HashChain.intercalate_concat _ _ _

/-- Taking SHA-256 to be injective, the hash of an entry determines what it was taken of. -/
theorem canonical_eq_of_computeHash_eq (hsha : Function.Injective env.sum256) {e f : Entry}
    (h : e.computeHash env = f.computeHash env) : e.canonical env = f.canonical env :=
  Go.utf8_injective (hsha (Go.hexString_injective h))

theorem unitSeparator_notMem_formatUint (n : ℕ) :
    unitSeparator ∉ (Go.formatUint n).toList := by
  intro hmem
  rw [Go.toList_formatUint] at hmem
  exact absurd ((Go.digits_toDigits n).2.1 _ hmem) (by decide)

theorem unitSeparator_notMem_hexString (bytes : Bytes) :
    unitSeparator ∉ (Go.hexString bytes).toList := by
  intro hmem
  obtain ⟨n, hn, hc⟩ := Go.exists_digit_of_mem_hexString hmem
  have hall : ∀ i : Fin 16, unitSeparator ≠ i.1.digitChar := by decide
  exact hall ⟨n, hn⟩ hc

theorem unitSeparator_notMem_prevHash {entries : List Entry}
    (h : Linked Entry.prevHash hash (Entry.computeHash env) "" entries) {e : Entry}
    (he : e ∈ entries) : unitSeparator ∉ e.prevHash.toList := by
  cases h.prev_eq he with
  | inl hprev =>
    rw [hprev]
    exact not_mem_nil
  | inr hprev =>
    obtain ⟨f, hf⟩ := hprev
    rw [hf]
    exact unitSeparator_notMem_hexString _

theorem split_of_canonical_eq {e f : Entry} (he : unitSeparator ∉ e.prevHash.toList)
    (hf : unitSeparator ∉ f.prevHash.toList) (h : e.canonical env = f.canonical env) :
    [unitSeparator].intercalate ((e.contents env).map String.toList) =
        [unitSeparator].intercalate ((f.contents env).map String.toList) ∧
      e.prevHash = f.prevHash := by
  have hjoined := congrArg String.toList h
  rw [toList_canonical, toList_canonical] at hjoined
  obtain ⟨hcontents, hprev⟩ := HashChain.append_cons_inj_of_notMem hjoined he hf
  exact ⟨hcontents, String.toList_inj.mp hprev⟩

end Canonical

/-! ## What the log itself writes -/

section Recording

@[simp] theorem sealed_prevHash (e : Entry) : (e.sealed env key).prevHash = e.prevHash := by
  unfold sealed
  split <;> rfl

@[simp] theorem sealed_seq (e : Entry) : (e.sealed env key).seq = e.seq := by
  unfold sealed
  split <;> rfl

@[simp] theorem sealed_hash (e : Entry) : (e.sealed env key).hash = e.computeHash env := by
  unfold sealed
  split <;> rfl

@[simp] theorem sealed_computeHash (e : Entry) :
    (e.sealed env key).computeHash env = e.computeHash env := by
  unfold sealed
  split <;> rfl

theorem sealed_sig (hkey : 0 < key.length) (e : Entry) :
    (e.sealed env key).sign env key = (e.sealed env key).sig := by
  unfold sealed
  rw [if_pos hkey]
  rfl

theorem verifyFrom_recordAll (l : Log) (actions : List Action) :
    verifyFrom env l.key l.prev (l.recordAll env actions) = .ok () := by
  induction actions generalizing l with
  | nil => rfl
  | cons a actions ih =>
    have hsig : ¬(0 < l.key.length ∧
        ((l.entry a).sealed env l.key).sign env l.key ≠ ((l.entry a).sealed env l.key).sig) :=
      fun h => h.2 (sealed_sig h.1 _)
    show verifyFrom env l.key l.prev ((l.record env a).2 :: _) = .ok ()
    rw [verifyFrom, Log.record, if_neg (by simp [Log.entry]), if_neg (by simp), if_neg hsig]
    exact ih (l.record env a).1

theorem verifyAuditChain_recordAll (actions : List Action) :
    verifyAuditChain env ((newAuditLog key).recordAll env actions) key = .ok () :=
  verifyFrom_recordAll (newAuditLog key) actions

theorem length_recordAll (l : Log) (actions : List Action) :
    (l.recordAll env actions).length = actions.length := by
  induction actions generalizing l with
  | nil => rfl
  | cons a actions ih => rw [Log.recordAll, length_cons, length_cons, ih]

theorem seq_recordAll (l : Log) (actions : List Action) :
    (l.recordAll env actions).map (·.seq.toNat) =
      (List.range actions.length).map fun i => (l.seq.toNat + 1 + i) % 2 ^ 64 := by
  induction actions generalizing l with
  | nil => rfl
  | cons a actions ih =>
    have hseq : (l.seq + 1).toNat = (l.seq.toNat + 1) % 2 ^ 64 := UInt64.toNat_add l.seq 1
    have hhead : (l.record env a).2.seq = l.seq + 1 := sealed_seq _
    have hnext : (l.record env a).1.seq = l.seq + 1 := rfl
    rw [Log.recordAll, map_cons, ih, length_cons, range_succ_eq_map, map_cons,
      map_map, hhead, hnext, hseq]
    refine congrArg₂ List.cons rfl (map_congr_left fun i _ => ?_)
    show ((l.seq.toNat + 1) % 2 ^ 64 + 1 + i) % 2 ^ 64 = (l.seq.toNat + 1 + (i + 1)) % 2 ^ 64
    omega

end Recording

/-! ## Two accepted chains with one end -/

/-- Two entries record the same action at the same place of the log; times are compared as they
are rendered. -/
def SameRecord (env : Environment) (e f : Entry) : Prop :=
  e.seq = f.seq ∧ env.rfc3339Nano e.time = env.rfc3339Nano f.time ∧ e.actor = f.actor ∧
    e.action = f.action ∧ e.target = f.target ∧ e.detail = f.detail

def textFields : List (Entry → String) := [Entry.actor, Entry.action, Entry.target, Entry.detail]

/-- The separator stands equally often in each text of the two entries. -/
def SameSeparators (e f : Entry) : Prop :=
  ∀ field ∈ textFields,
    (field e).toList.count unitSeparator = (field f).toList.count unitSeparator

instance (env : Environment) (e f : Entry) : Decidable (SameRecord env e f) := by
  unfold SameRecord; infer_instance

instance (e f : Entry) : Decidable (SameSeparators e f) := by
  unfold SameSeparators; infer_instance

theorem sameRecord_of_contents_eq {e f : Entry} (h : e.contents env = f.contents env) :
    SameRecord env e f := by
  simp only [Entry.contents, List.cons.injEq, and_true] at h
  obtain ⟨hseq, hrest⟩ := h
  exact ⟨UInt64.toNat_inj.mp (Go.formatUint_injective hseq), hrest⟩

theorem SameRecord.sameSeparators {e f : Entry} (h : SameRecord env e f) : SameSeparators e f := by
  obtain ⟨-, -, hactor, haction, htarget, hdetail⟩ := h
  simp [SameSeparators, textFields, hactor, haction, htarget, hdetail]

theorem SameSeparators.sameRecord {e f : Entry} (h : SameSeparators e f)
    (hjoined : [unitSeparator].intercalate ((e.contents env).map String.toList) =
      [unitSeparator].intercalate ((f.contents env).map String.toList)) :
    SameRecord env e f := by
  obtain ⟨hactor, haction, htarget, hdetail⟩ : _ ∧ _ ∧ _ ∧ _ := by
    simpa [SameSeparators, textFields] using h
  have hcount : List.Forall₂ (fun x y : List Char => x.count unitSeparator = y.count unitSeparator)
      ((e.contents env).map String.toList) ((f.contents env).map String.toList) := by
    -- the number and the time hold no separator at all
    refine .cons ?_ (.cons ?_ (.cons hactor (.cons haction (.cons htarget (.cons hdetail .nil)))))
    · rw [count_eq_zero_of_not_mem (unitSeparator_notMem_formatUint _),
        count_eq_zero_of_not_mem (unitSeparator_notMem_formatUint _)]
    · rw [count_eq_zero_of_not_mem (env.rfc3339Nano_noSeparator _),
        count_eq_zero_of_not_mem (env.rfc3339Nano_noSeparator _)]
  have hcontents := HashChain.intercalate_inj hcount hjoined
  exact sameRecord_of_contents_eq
    (map_injective_iff.mpr (fun _ _ h => String.toList_inj.mp h) hcontents)

theorem joined_eq_of_verify (hsha : Function.Injective env.sum256) {xs ys : List Entry}
    (hlen : xs.length = ys.length) (hxs : verifyAuditChain env xs key = .ok ())
    (hys : verifyAuditChain env ys key' = .ok ())
    (hlast : xs.getLast?.map hash = ys.getLast?.map hash) :
    List.Forall₂ (fun e f => [unitSeparator].intercalate ((e.contents env).map String.toList) =
      [unitSeparator].intercalate ((f.contents env).map String.toList)) xs ys := by
  have hlinked := (verifyFrom_eq_ok_iff.mp hxs).1
  have hlinked' := (verifyFrom_eq_ok_iff.mp hys).1
  -- equal hashes give equal texts, and the previous hash, being the last field, can be cut off
  have hsplit : ∀ e ∈ xs, ∀ f ∈ ys, e.computeHash env = f.computeHash env →
      [unitSeparator].intercalate ((e.contents env).map String.toList) =
          [unitSeparator].intercalate ((f.contents env).map String.toList) ∧
        e.prevHash = f.prevHash := by
    intro e he f hf h
    exact split_of_canonical_eq (unitSeparator_notMem_prevHash hlinked he)
      (unitSeparator_notMem_prevHash hlinked' hf) (canonical_eq_of_computeHash_eq hsha h)
  have htip : tip hash "" xs = tip hash "" ys := by
    rw [HashChain.tip_eq_getLast?, HashChain.tip_eq_getLast?, hlast]
  have hdigests := hlinked.forall₂_digest hlen hlinked' htip
    fun e he f hf h => (hsplit e he f hf h).2
  rw [forall₂_iff_get] at hdigests ⊢
  refine ⟨hlen, fun i hi hi' => ?_⟩
  exact (hsplit _ (get_mem _ _) _ (get_mem _ _) (hdigests.2 i hi hi')).1

/-- Two accepted chains of one length that end in the same hash record the same actions exactly if
the separator stands equally often in their texts, entry by entry and field by field. -/
theorem records_agree_iff (hsha : Function.Injective env.sum256) {xs ys : List Entry}
    (hlen : xs.length = ys.length) (hxs : verifyAuditChain env xs key = .ok ())
    (hys : verifyAuditChain env ys key' = .ok ())
    (hlast : xs.getLast?.map hash = ys.getLast?.map hash) :
    List.Forall₂ (SameRecord env) xs ys ↔ List.Forall₂ SameSeparators xs ys := by
  constructor
  · intro h
    exact h.imp fun e f hef => hef.sameSeparators
  · intro h
    have hjoined := joined_eq_of_verify hsha hlen hxs hys hlast
    rw [forall₂_iff_get] at h hjoined ⊢
    exact ⟨hlen, fun i hi hi' => (h.2 i hi hi').sameRecord (hjoined.2 i hi hi')⟩

/-- An update of a playbook whose name holds a separator, as the server records it, and the entry
made of it by moving the separator into the name of the target. -/
def renamedPlaybook : Action where
  time := 0
  actor := "10.0.0.5:443"
  action := "playbook_update"
  target := "PB-0001"
  detail := "x\x1fy mode=off"

def movedSeparator : Action :=
  { renamedPlaybook with target := "PB-0001\x1fx", detail := "y mode=off" }

/-- Both entries are accepted with one and the same hash and signature. -/
theorem moved_separator_is_accepted :
    let xs := (newAuditLog [7]).recordAll .plain [renamedPlaybook]
    let ys := (newAuditLog [7]).recordAll .plain [movedSeparator]
    verifyAuditChain .plain xs [7] = .ok () ∧ verifyAuditChain .plain ys [7] = .ok () ∧
      xs.getLast?.map hash = ys.getLast?.map hash ∧
      ¬List.Forall₂ (SameRecord .plain) xs ys := by
  refine ⟨verifyAuditChain_recordAll _, verifyAuditChain_recordAll _, ?_, ?_⟩
  · decide +kernel
  · intro h
    exact absurd (forall₂_cons.mp h).1 (by decide +kernel)

/-- Two logs of the same actions, written at times that are rendered alike. -/
theorem records_agree_of_same_actions :
    let xs := (newAuditLog [7]).recordAll .plain [renamedPlaybook, movedSeparator]
    let ys := (newAuditLog [7]).recordAll .plain [{ renamedPlaybook with time := 5 }, movedSeparator]
    xs ≠ ys ∧ List.Forall₂ (SameRecord .plain) xs ys := by
  intro xs ys
  have hiff : List.Forall₂ (SameRecord .plain) xs ys ↔ List.Forall₂ SameSeparators xs ys :=
    records_agree_iff Function.injective_id rfl (verifyAuditChain_recordAll _)
      (verifyAuditChain_recordAll _) rfl
  refine ⟨by decide +kernel, hiff.mpr ?_⟩
  exact .cons (by decide +kernel) (.cons (by decide +kernel) .nil)

/-! ## The file over the lives of the server -/

section File

theorem auditFile_eq_flatMap (lives : List (List Action)) :
    auditFile env key lives = lives.flatMap ((newAuditLog key).recordAll env) := by
  have hrun : ∀ file, Runs.run (serve env key) file lives =
      file ++ lives.flatMap ((newAuditLog key).recordAll env) := by
    induction lives with
    | nil => intro file; simp
    | cons actions lives ih =>
      intro file
      rw [Runs.run_cons, ih, serve, flatMap_cons, append_assoc]
  exact hrun []

theorem auditFile_eq_recordAll {lives : List (List Action)} (h : lives.countP (· ≠ []) ≤ 1) :
    auditFile env key lives = (newAuditLog key).recordAll env lives.flatten := by
  rw [auditFile_eq_flatMap]
  induction lives with
  | nil => rfl
  | cons actions lives ih =>
    rw [flatMap_cons, flatten_cons]
    by_cases hactions : actions = []
    · subst hactions
      exact ih (by simpa using h)
    · -- this is the life that recorded, so all later ones recorded nothing
      have hnone : lives.countP (· ≠ []) = 0 := by
        rw [countP_cons_of_pos (by simpa using hactions)] at h
        omega
      have hempty : ∀ rest ∈ lives, rest = [] := by
        simpa [countP_eq_zero] using hnone
      rw [flatten_eq_nil_iff.mpr hempty, append_nil, flatMap_eq_nil_iff.mpr,
        append_nil]
      intro rest hrest
      rw [hempty rest hrest]
      rfl

theorem countP_le_count_one (env : Environment) (key : Bytes) (lives : List (List Action)) :
    lives.countP (· ≠ []) ≤ ((auditFile env key lives).map (·.seq.toNat)).count 1 := by
  rw [auditFile_eq_flatMap]
  induction lives with
  | nil => exact Nat.zero_le _
  | cons actions lives ih =>
    rw [flatMap_cons, map_append, count_append]
    cases actions with
    | nil => simpa [Log.recordAll] using ih
    | cons a actions =>
      have hone : 1 ∈ (((newAuditLog key).recordAll env (a :: actions)).map (·.seq.toNat)) := by
        rw [seq_recordAll, mem_map]
        exact ⟨0, by simp, rfl⟩
      have hpos := count_pos_iff.mpr hone
      rw [countP_cons_of_pos (by simp)]
      omega

theorem seq_recordAll_eq_range'_iff (actions : List Action) :
    ((newAuditLog key).recordAll env actions).map (·.seq.toNat) = List.range' 1 actions.length ↔
      actions.length < 2 ^ 64 := by
  have hseq : ((newAuditLog key).recordAll env actions).map (·.seq.toNat) =
      (List.range actions.length).map fun i => (1 + i) % 2 ^ 64 := by
    rw [seq_recordAll]
    rfl
  rw [hseq, range'_eq_map_range]
  constructor
  · intro h
    by_contra hlen
    -- the number after `2 ^ 64 - 1` is 0
    have hmem : 2 ^ 64 - 1 ∈ List.range actions.length := mem_range.mpr (by omega)
    have hwrap := (map_inj_left.mp h) (2 ^ 64 - 1) hmem
    revert hwrap
    decide
  · intro hlen
    refine map_congr_left fun i hi => ?_
    have hi' := mem_range.mp hi
    exact Nat.mod_eq_of_lt (by omega)

/-- The audit file is one chain with the numbers 1, 2, 3, … exactly if no more than one life of the
server recorded anything, and that one fewer than `2 ^ 64` actions. -/
theorem auditFile_verifies_iff (env : Environment) (key : Bytes) (lives : List (List Action)) :
    (verifyAuditChain env (auditFile env key lives) key = .ok () ∧
        (auditFile env key lives).map (·.seq.toNat) =
          List.range' 1 (auditFile env key lives).length) ↔
      lives.countP (· ≠ []) ≤ 1 ∧ lives.flatten.length < 2 ^ 64 := by
  constructor
  · rintro ⟨-, hseq⟩
    have hone : lives.countP (· ≠ []) ≤ 1 := by
      have hcount := countP_le_count_one env key lives
      rw [hseq] at hcount
      exact hcount.trans (nodup_iff_count_le_one.mp nodup_range' 1)
    rw [auditFile_eq_recordAll hone, length_recordAll] at hseq
    exact ⟨hone, (seq_recordAll_eq_range'_iff lives.flatten).mp hseq⟩
  · rintro ⟨hone, hlen⟩
    rw [auditFile_eq_recordAll hone, length_recordAll]
    exact ⟨verifyAuditChain_recordAll _, (seq_recordAll_eq_range'_iff lives.flatten).mpr hlen⟩

/-- A server that records one action, restarts and records another. -/
theorem restart_breaks_chain :
    let lives : List (List Action) :=
      [[{ time := 0, actor := "admin", action := "rules_reload" }],
       [{ time := 1, actor := "admin", action := "rules_reload" }]]
    (auditFile .plain [] lives).map (·.seq.toNat) = [1, 1] ∧
      verifyAuditChain .plain (auditFile .plain [] lives) [] =
        .error (.errorf "audit entry %d: chain broken (prev_hash mismatch)" ["1"]) := by
  decide +kernel

end File

end ArgusEdr.Audit
