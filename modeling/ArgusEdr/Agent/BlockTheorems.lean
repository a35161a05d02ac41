import ArgusEdr.Agent.Respond
import ArgusEdr.Go.Address
import ArgusEdr.Lib.Fallible
import ArgusEdr.Lib.Simulation

/-!
# The blocker and the firewall (`internal/respond/network.go`)

`Block` keeps its own memory of what it has asked of the firewall. Here it is run over sequences of
calls, each with its own answers of `nft`, beside a record of the commands that were run and how they
ended. Every call keeps the two `Consistent`; the memory is by text, and an address has several.
-/

namespace ArgusEdr.Respond

open Runs Simulation Fallible List

/-! ## Calls, and the commands they run -/

/-- How `Block` reads a text: `net.ParseIP`, then `To4`. -/
def ipFamily (ip : String) : Option IPFamily :=
  (Go.parseIP ip).map fun parsed => if (Go.to4 parsed).isSome then .v4 else .v6

/-- A call of `Block` with the answers to the commands it may run. -/
structure BlockCall where
  ip : String
  exec : String → List String → Except Go.Error Unit

def BlockCall.env (c : BlockCall) : Env :=
  { Env.obliging with exec := c.exec, parseIP := ipFamily }

/-- A command that was given to `nft`, and whether it succeeded. -/
structure Command where
  args : List String
  succeeded : Bool
deriving Repr, DecidableEq

def BlockCall.outcome (c : BlockCall) : Effect → Option Command
  | .exec name args => some ⟨args, (c.exec name args).isOk⟩
  | .kill .. => none

/-- The blocker beside the commands that were run, oldest first. -/
structure Firewall where
  host : Host := {}
  ran : List Command := []
deriving Repr, DecidableEq

def Firewall.call (w : Firewall) (c : BlockCall) : Firewall × Except Go.Error Unit :=
  let result := (block c.env c.ip).run.run w.host
  let ran := (result.2.effects.drop w.host.effects.length).filterMap c.outcome
  ({ host := result.2, ran := w.ran ++ ran }, result.1)

def addTable : List String := ["add", "table", "inet", nftTable]

def addChain : List String :=
  ["add", "chain", "inet", nftTable, nftChain,
    "\x7b type filter hook output priority 0 ; policy accept ; \x7d"]

def addRule (family ip : String) : List String :=
  ["add", "rule", "inet", nftTable, nftChain, family, "daddr", ip, "drop"]

def dropTarget (args : List String) : Option String :=
  if args.take 2 = ["add", "rule"] ∧ args[8]? = some "drop" then args[7]? else none

def installed (ran : List Command) : List String :=
  ran.filterMap fun c => if c.succeeded then dropTarget c.args else none

/-- The table has been created, and the chain after it. -/
def Prepared (ran : List Command) : Prop :=
  List.Sublist [⟨addTable, true⟩, ⟨addChain, true⟩] ran

/-! ## One call -/

@[simp] theorem dropTarget_addRule (family ip : String) :
    dropTarget (addRule family ip) = some ip := by
  simp [dropTarget, addRule]

@[simp] theorem dropTarget_addTable : dropTarget addTable = none := by decide

@[simp] theorem dropTarget_addChain : dropTarget addChain = none := by decide

def Host.noted (h : Host) (cmds : List (List String)) : Host :=
  { h with effects := h.effects ++ cmds.map (.exec "nft") }

theorem Host.noted_noted (h : Host) (cmds cmds' : List (List String)) :
    (h.noted cmds).noted cmds' = h.noted (cmds ++ cmds') := by
  simp [Host.noted]

theorem run_runNft (env : Env) (args : List String) (format : String) (names : List String)
    (h : Host) :
    (runNft env args format names).run.run h =
      ((env.exec "nft" args).mapError (.wrapf format names), h.noted [args]) := by
  have hrecord : (record (.exec "nft" args)).run.run h = (.ok (), h.noted [args]) := rfl
  refine (run_bind_ok hrecord).trans ?_
  cases env.exec "nft" args <;> rfl

def setup (b : NetworkBlocker) : List (List String) :=
  if b.chainUp then [] else [addTable, addChain]

def Host.withBlocker (h : Host) (b : NetworkBlocker) : Host := { h with blocker := b }

theorem ensureChain_cases (env : Env) (h : Host) :
    (∃ (err : Go.Error) (cmds : List (List String)), (∀ args ∈ cmds, dropTarget args = none) ∧
      (ensureChain env).run.run h = (.error err, h.noted cmds)) ∨
    ((∀ args ∈ setup h.blocker, env.exec "nft" args = .ok ()) ∧
      (ensureChain env).run.run h =
        (.ok (), (h.noted (setup h.blocker)).withBlocker { h.blocker with chainUp := true })) := by
  unfold ensureChain
  rw [run_get_bind]
  cases hup : h.blocker.chainUp with
  | true =>
    right
    obtain ⟨⟨_, _⟩, _⟩ := h
    subst hup
    simp [setup, Host.noted, Host.withBlocker]
    rfl
  | false =>
    have hsetup : setup h.blocker = [addTable, addChain] := by simp [setup, hup]
    simp only [Bool.false_eq_true, if_false]
    have hrunTable := run_runNft env addTable "nft create table: %w" [] h
    have hrunChain := run_runNft env addChain "nft create chain: %w" [] (h.noted [addTable])
    rw [Host.noted_noted] at hrunChain
    cases htable : env.exec "nft" addTable with
    | error =>
      left
      rw [htable] at hrunTable
      exact ⟨_, [addTable], by simp, run_bind_error hrunTable⟩
    | ok _ =>
      rw [htable] at hrunTable
      cases hchain : env.exec "nft" addChain with
      | error err =>
        left
        rw [hchain] at hrunChain
        exact ⟨.wrapf "nft create chain: %w" [] err, [addTable, addChain], by simp,
          (run_bind_ok hrunTable).trans (run_bind_error hrunChain)⟩
      | ok _ =>
        right
        rw [hchain] at hrunChain
        refine ⟨by simp [hsetup, htable, hchain], (run_bind_ok hrunTable).trans ?_⟩
        rw [hsetup]
        exact run_bind_ok hrunChain

/-- `Block` of an address that is not in its memory fails to bring the chain up, fails to add the
rule, or adds it. -/
theorem block_cases (env : Env) (ip : String) (h : Host) {parsed : IPFamily}
    (hip : env.parseIP ip = some parsed) (hnew : ip ∉ h.blocker.blocked) :
    (∃ (err : Go.Error) (cmds : List (List String)), (∀ args ∈ cmds, dropTarget args = none) ∧
      (block env ip).run.run h = (.error err, h.noted cmds)) ∨
    (∀ args ∈ setup h.blocker, env.exec "nft" args = .ok ()) ∧ ∃ family,
      ((env.exec "nft" (addRule family ip)).isOk = false ∧ ∃ err, (block env ip).run.run h =
        (.error err, (h.noted (setup h.blocker ++ [addRule family ip])).withBlocker
          { h.blocker with chainUp := true })) ∨
      ((env.exec "nft" (addRule family ip)).isOk = true ∧ (block env ip).run.run h =
        (.ok (), (h.noted (setup h.blocker ++ [addRule family ip])).withBlocker
          ⟨true, ip :: h.blocker.blocked⟩)) := by
  unfold block
  simp only [hip]
  rw [run_get_bind]
  simp only [hnew, if_false]
  obtain ⟨err, cmds, hcmds, hfail⟩ | ⟨hok, hchain⟩ := ensureChain_cases env h
  · exact Or.inl ⟨err, cmds, hcmds, run_bind_error hfail⟩
  · right
    refine ⟨hok, if parsed = .v4 then "ip" else "ip6", ?_⟩
    have hrule := run_runNft env (addRule (if parsed = .v4 then "ip" else "ip6") ip)
      "nft drop %s: %w" [ip]
      ((h.noted (setup h.blocker)).withBlocker { h.blocker with chainUp := true })
    have hnoted : ∀ family, ((h.noted (setup h.blocker)).withBlocker
        { h.blocker with chainUp := true }).noted [addRule family ip] =
          (h.noted (setup h.blocker ++ [addRule family ip])).withBlocker
            { h.blocker with chainUp := true } := by
      intro family
      simp [Host.noted, Host.withBlocker]
    rw [hnoted] at hrule
    generalize (if parsed = .v4 then "ip" else "ip6") = family at hrule ⊢
    cases hexec : env.exec "nft" (addRule family ip) with
    | error err =>
      rw [hexec] at hrule
      exact Or.inl ⟨rfl, .wrapf "nft drop %s: %w" [ip] err,
        (run_bind_ok hchain).trans (run_bind_error hrule)⟩
    | ok =>
      rw [hexec] at hrule
      exact Or.inr ⟨rfl, (run_bind_ok hchain).trans (run_bind_ok hrule)⟩

def created (b : NetworkBlocker) : List Command := (setup b).map fun args => ⟨args, true⟩

/-- What one call does: it refuses the text, finds it blocked, fails to bring the chain up, fails
to add the rule, or adds it. -/
inductive Called (w : Firewall) (c : BlockCall) : Firewall → Except Go.Error Unit → Prop
  | refused (err : Go.Error) (hip : Go.parseIP c.ip = none) : Called w c w (.error err)
  | known (hip : (Go.parseIP c.ip).isSome) (hin : c.ip ∈ w.host.blocker.blocked) :
    Called w c w (.ok ())
  | noChain (err : Go.Error) (effects : List Effect) (ran : List Command)
    (hip : (Go.parseIP c.ip).isSome) (hran : ∀ r ∈ ran, dropTarget r.args = none) :
    Called w c ⟨⟨w.host.blocker, effects⟩, w.ran ++ ran⟩ (.error err)
  | noRule (err : Go.Error) (effects : List Effect) (family : String)
    (hip : (Go.parseIP c.ip).isSome) :
    Called w c ⟨⟨⟨true, w.host.blocker.blocked⟩, effects⟩,
      w.ran ++ created w.host.blocker ++ [⟨addRule family c.ip, false⟩]⟩ (.error err)
  | added (effects : List Effect) (family : String) (hip : (Go.parseIP c.ip).isSome)
    (hnew : c.ip ∉ w.host.blocker.blocked) :
    Called w c ⟨⟨⟨true, c.ip :: w.host.blocker.blocked⟩, effects⟩,
      w.ran ++ created w.host.blocker ++ [⟨addRule family c.ip, true⟩]⟩ (.ok ())

variable {w w' : Firewall} {c : BlockCall} {answer : Except Go.Error Unit} {b : NetworkBlocker}
  {ran : List Command} {r : Command}

/-- What a call that runs some commands adds to the record. -/
theorem call_eq {cmds : List (List String)}
    (h : (block c.env c.ip).run.run w.host = (answer, (w.host.noted cmds).withBlocker b)) :
    w.call c = (⟨⟨b, w.host.effects ++ cmds.map (.exec "nft")⟩,
      w.ran ++ cmds.map fun args => ⟨args, (c.exec "nft" args).isOk⟩⟩, answer) := by
  unfold Firewall.call
  rw [h]
  have hran : (cmds.map (Effect.exec "nft")).filterMap c.outcome =
      cmds.map fun args => ⟨args, (c.exec "nft" args).isOk⟩ := by
    simp [filterMap_map, BlockCall.outcome, Function.comp_def]
  simp [Host.noted, Host.withBlocker, hran]

theorem called (w : Firewall) (c : BlockCall) : Called w c (w.call c).1 (w.call c).2 := by
  cases hip : Go.parseIP c.ip with
  | none =>
    have hblock : (block c.env c.ip).run.run w.host =
        (.error (.errorf "invalid ip %q" [c.ip]), w.host) := by
      simp [block, BlockCall.env, ipFamily, hip]
      rfl
    have hcall : w.call c = (w, .error (.errorf "invalid ip %q" [c.ip])) := by
      simp [Firewall.call, hblock]
    rw [hcall]
    exact .refused _ hip
  | some =>
    have hsome : (Go.parseIP c.ip).isSome := by simp [hip]
    obtain ⟨parsed, hparsed⟩ : ∃ parsed, c.env.parseIP c.ip = some parsed := by
      simp [BlockCall.env, ipFamily, hip]
    by_cases hin : c.ip ∈ w.host.blocker.blocked
    · have hblock : (block c.env c.ip).run.run w.host = (.ok (), w.host) := by
        unfold block
        simp only [hparsed]
        rw [run_get_bind]
        simp only [hin, if_true]
        rfl
      have hcall : w.call c = (w, .ok ()) := by
        simp [Firewall.call, hblock]
      rw [hcall]
      exact .known hsome hin
    · obtain ⟨err, cmds, hcmds, hrun⟩ | ⟨hok, family, hrule⟩ :=
        block_cases c.env c.ip w.host hparsed hin
      · rw [call_eq (b := w.host.blocker) hrun]
        refine .noChain err _ _ hsome ?_
        simpa using hcmds
      · -- the commands before the rule have all succeeded
        have hran : ∀ ok, (c.exec "nft" (addRule family c.ip)).isOk = ok →
            (setup w.host.blocker ++ [addRule family c.ip]).map
              (fun args => (⟨args, (c.exec "nft" args).isOk⟩ : Command)) =
              created w.host.blocker ++ [⟨addRule family c.ip, ok⟩] := by
          rintro ok rfl
          rw [map_append, created]
          congr 1
          refine map_congr_left fun args hargs => ?_
          have hargs : c.exec "nft" args = .ok () := hok args hargs
          rw [hargs]
          rfl
        obtain ⟨hfail, err, hrun⟩ | ⟨hadd, hrun⟩ := hrule
        · rw [call_eq hrun, hran false hfail, ← append_assoc]
          exact .noRule err _ family hsome
        · rw [call_eq hrun, hran true hadd, ← append_assoc]
          exact .added _ family hsome hin

/-! ## The memory and the record -/

/-- Every rule in the record was preceded by the chain. -/
def Ordered (ran : List Command) : Prop :=
  AllSteps (fun seen c => seen ++ [c]) (fun seen c => (dropTarget c.args).isSome → Prepared seen)
    [] ran

/-- The blocker's memory agrees with the record of what was run. -/
structure Consistent (w : Firewall) : Prop where
  prepared : w.host.blocker.chainUp = true → Prepared w.ran
  ordered : Ordered w.ran
  installed_eq : installed w.ran = w.host.blocker.blocked.reverse
  nodup : w.host.blocker.blocked.Nodup

theorem run_concat_self (seen ran : List Command) :
    run (fun seen c => seen ++ [c]) seen ran = seen ++ ran := by
  induction ran generalizing seen with
  | nil => simp
  | cons c ran ih => simp [ih]

theorem ordered_append_iff (ran ran' : List Command) :
    Ordered (ran ++ ran') ↔ Ordered ran ∧ AllSteps (fun seen c => seen ++ [c])
      (fun seen c => (dropTarget c.args).isSome → Prepared seen) ran ran' := by
  rw [Ordered, AllSteps.append_iff, run_concat_self, nil_append, Ordered]

theorem Ordered.append {ran' : List Command} (h : Ordered ran)
    (hran : ∀ r ∈ ran', dropTarget r.args = none) : Ordered (ran ++ ran') := by
  refine (ordered_append_iff _ _).mpr ⟨h, AllSteps.of_split ?_⟩
  intro pre r post hsplit hrule
  rw [hran r (by simp [hsplit])] at hrule
  cases hrule

theorem Ordered.concat (h : Ordered ran) (hp : Prepared ran) : Ordered (ran ++ [r]) :=
  (ordered_append_iff _ _).mpr ⟨h, fun _ => hp, trivial⟩

theorem dropTarget_of_mem_created (h : r ∈ created b) : dropTarget r.args = none := by
  simp only [created, setup, mem_map] at h
  obtain ⟨args, hargs, rfl⟩ := h
  split at hargs
  · cases hargs
  · simp only [mem_cons, not_mem_nil, or_false] at hargs
    obtain rfl | rfl := hargs
    · exact dropTarget_addTable
    · exact dropTarget_addChain

theorem installed_append (ran ran' : List Command) :
    installed (ran ++ ran') = installed ran ++ installed ran' :=
  filterMap_append

theorem installed_of_none (h : ∀ r ∈ ran, dropTarget r.args = none) : installed ran = [] := by
  refine filterMap_eq_nil_iff.mpr fun r hr => ?_
  rw [h r hr, ite_self]

theorem Consistent.prepared_created (h : Consistent w) :
    Prepared (w.ran ++ created w.host.blocker) := by
  cases hup : w.host.blocker.chainUp with
  | true => exact (h.prepared hup).trans (sublist_append_left _ _)
  | false =>
    have hcreated : created w.host.blocker = [⟨addTable, true⟩, ⟨addChain, true⟩] := by
      simp [created, setup, hup]
    rw [hcreated]
    exact sublist_append_right _ _

theorem Consistent.called (h : Consistent w) (hcall : Called w c w' answer) : Consistent w' := by
  have hcreated := fun r => dropTarget_of_mem_created (b := w.host.blocker) (r := r)
  cases hcall with
  | refused | known => exact h
  | noChain err effects ran _ hran =>
    exact
      { prepared := fun hup => (h.prepared hup).trans (sublist_append_left _ _)
        ordered := h.ordered.append hran
        installed_eq := by rw [installed_append, installed_of_none hran, h.installed_eq,
          append_nil]
        nodup := h.nodup }
  | noRule =>
    exact
      { prepared := fun _ => h.prepared_created.trans (sublist_append_left _ _)
        ordered := (h.ordered.append hcreated).concat h.prepared_created
        installed_eq := by
          rw [installed_append, installed_append, installed_of_none hcreated, h.installed_eq]
          simp [installed]
        nodup := h.nodup }
  | added effects family _ hnew =>
    exact
      { prepared := fun _ => h.prepared_created.trans (sublist_append_left _ _)
        ordered := (h.ordered.append hcreated).concat h.prepared_created
        installed_eq := by
          rw [installed_append, installed_append, installed_of_none hcreated, h.installed_eq]
          simp [installed]
        nodup := nodup_cons.mpr ⟨hnew, h.nodup⟩ }

theorem consistent_initial : Consistent {} where
  prepared := by intro h; cases h
  ordered := trivial
  installed_eq := rfl
  nodup := nodup_nil

theorem consistent_run (calls : List BlockCall) :
    Consistent (run (next Firewall.call) {} calls) :=
  run_invariant consistent_initial (fun _ _ h => h.called (called _ _)) calls

theorem Called.isSome_of_ok (hcall : Called w c w' (.ok ())) : (Go.parseIP c.ip).isSome := by
  cases hcall with
  | known hip | added _ _ hip => exact hip

theorem Called.eq_of_none (hcall : Called w c w' answer) (hnone : Go.parseIP c.ip = none) :
    ∃ err, (w', answer) = (w, .error err) := by
  cases hcall with
  | refused err => exact ⟨err, rfl⟩
  | known hip | noChain _ _ _ hip | noRule _ _ _ hip | added _ _ hip => simp [hnone] at hip

theorem Called.mem_blocked_iff (hcall : Called w c w' answer) (t : String) :
    t ∈ w'.host.blocker.blocked ↔ t ∈ w.host.blocker.blocked ∨ c.ip = t ∧ answer = .ok () := by
  cases hcall with
  | refused => simp
  | known _ hin =>
    simp only [and_true, iff_self_or]
    rintro rfl
    exact hin
  | noChain | noRule => simp
  | added => simp [or_comm, eq_comm]

theorem mem_installed_iff (calls : List BlockCall) (t : String) :
    t ∈ installed (run (next Firewall.call) {} calls).ran ↔
      ∃ p ∈ trace Firewall.call {} calls, p.1.ip = t ∧ p.2 = .ok () := by
  rw [(consistent_run calls).installed_eq, mem_reverse]
  induction calls using List.reverseRecOn with
  | nil => simp
  | append_singleton calls c ih =>
    rw [run_concat, trace_append]
    simp only [trace_cons, trace_nil, mem_append, mem_singleton, or_and_right,
      exists_or, exists_eq_left, ← ih]
    exact (called _ c).mem_blocked_iff t

theorem countP_le_one_iff {texts : List String} (h : texts.Nodup)
    (hip : ∀ t ∈ texts, (Go.parseIP t).isSome) :
    (∀ a, texts.countP (fun t => Go.parseIP t = some a) ≤ 1) ↔
      ∀ s ∈ texts, ∀ t ∈ texts, Go.parseIP s = Go.parseIP t → s = t := by
  have hcount : ∀ a, texts.countP (fun t => Go.parseIP t = some a) =
      (texts.toFinset.filter fun t => Go.parseIP t = some a).card := by
    intro a
    rw [countP_eq_length_filter, ← toFinset_card_of_nodup (h.filter _),
      toFinset_filter]
    simp only [decide_eq_true_eq]
  simp only [hcount, Finset.card_le_one, Finset.mem_filter, mem_toFinset]
  constructor
  · intro hone s hs t ht hsame
    obtain ⟨a, ha⟩ := Option.isSome_iff_exists.mp (hip s hs)
    exact hone a s ⟨hs, ha⟩ t ⟨ht, hsame ▸ ha⟩
  · rintro hinj a s ⟨hs, hsa⟩ t ⟨ht, hta⟩
    exact hinj s hs t ht (hsa.trans hta.symm)

theorem Ordered.split {pre post : List Command} (h : Ordered (pre ++ r :: post))
    (hrule : (dropTarget r.args).isSome) : Prepared pre := by
  have hpre := h.at_split hrule
  rwa [run_concat_self, nil_append] at hpre

theorem exists_call_of_mem_installed {calls : List BlockCall} {t : String}
    (h : t ∈ installed (run (next Firewall.call) {} calls).ran) :
    (∃ c ∈ calls, c.ip = t) ∧ (Go.parseIP t).isSome := by
  obtain ⟨p, hp, rfl, hok⟩ := (mem_installed_iff calls t).mp h
  have hcall : p.1 ∈ calls := by
    rw [← map_fst_trace Firewall.call {} calls]
    exact mem_map_of_mem hp
  have hall : ∀ p ∈ trace Firewall.call {} calls, p.2 = .ok () → (Go.parseIP p.1.ip).isSome :=
    forall_mem_trace (Q := fun c answer => answer = .ok () → (Go.parseIP c.ip).isSome)
      (fun w c hok => (hok ▸ called w c : Called w c _ (.ok ())).isSome_of_ok) {} calls
  exact ⟨⟨p.1, hcall, rfl⟩, hall p hp hok⟩

/-- Over every sequence of calls and every pattern of failures: the table and then the chain are
created before any rule is added; a call that succeeds leaves a rule for its address installed; a
text that is no address runs nothing. An address has one rule at most exactly if no two calls that
succeed spell it differently, and so always if the texts are dotted. -/
theorem block_history (calls : List BlockCall) :
    let w := run (next Firewall.call) {} calls
    (∀ pre r post, w.ran = pre ++ r :: post → (dropTarget r.args).isSome → Prepared pre) ∧
    AllSteps (next Firewall.call) (fun w c => (w.call c).2 = .ok () →
      (Go.parseIP c.ip).isSome ∧ c.ip ∈ installed (w.call c).1.ran) {} calls ∧
    AllSteps (next Firewall.call) (fun w c => Go.parseIP c.ip = none →
      ∃ err, w.call c = (w, .error err)) {} calls ∧
    ((∀ a, (installed w.ran).countP (fun t => Go.parseIP t = some a) ≤ 1) ↔
      ∀ p ∈ trace Firewall.call {} calls, ∀ q ∈ trace Firewall.call {} calls,
        p.2 = .ok () → q.2 = .ok () → Go.parseIP p.1.ip = Go.parseIP q.1.ip → p.1.ip = q.1.ip) ∧
    ((∀ c ∈ calls, ':' ∉ c.ip.toList) →
      ∀ a, (installed w.ran).countP (fun t => Go.parseIP t = some a) ≤ 1) := by
  intro w
  have hw : Consistent w := consistent_run calls
  have hnodup : (installed w.ran).Nodup := by
    rw [hw.installed_eq, nodup_reverse]
    exact hw.nodup
  have hone := countP_le_one_iff hnodup fun t ht => (exists_call_of_mem_installed ht).2
  refine ⟨?_, ?_, ?_, ?_, ?_⟩
  · intro pre r post hsplit
    exact (hsplit ▸ hw.ordered).split
  · refine AllSteps.always.of_invariant consistent_initial
      (fun _ _ h _ => h.called (called _ _)) fun v c h _ hok => ?_
    have hcall : Called v c (v.call c).1 (.ok ()) := hok ▸ called v c
    refine ⟨hcall.isSome_of_ok, ?_⟩
    rw [(h.called hcall).installed_eq, mem_reverse, hcall.mem_blocked_iff]
    exact Or.inr ⟨rfl, rfl⟩
  · refine AllSteps.of_split fun pre c post _ hip => ?_
    exact (called _ c).eq_of_none hip
  · rw [hone]
    simp only [w, mem_installed_iff]
    constructor
    · intro h p hp q hq hpok hqok
      exact h _ ⟨p, hp, rfl, hpok⟩ _ ⟨q, hq, rfl, hqok⟩
    · rintro h _ ⟨p, hp, rfl, hpok⟩ _ ⟨q, hq, rfl, hqok⟩
      exact h p hp q hq hpok hqok
  · intro hdotted
    rw [hone]
    intro s hs t ht hsame
    obtain ⟨⟨c, hc, rfl⟩, hsome⟩ := exists_call_of_mem_installed hs
    obtain ⟨⟨d, hd, rfl⟩, -⟩ := exists_call_of_mem_installed ht
    obtain ⟨a, ha⟩ := Option.isSome_iff_exists.mp hsome
    exact Go.parseIP_injective_of_dotted (hdotted c hc) (hdotted d hd) ha (hsame ▸ ha)

def nftSucceeds : String → List String → Except Go.Error Unit := fun _ _ => .ok ()

/-- Two spellings of one address: both calls succeed, and the address has two rules. -/
theorem block_two_spellings :
    let calls : List BlockCall := [⟨"2001:db8::1", nftSucceeds⟩, ⟨"2001:DB8::1", nftSucceeds⟩]
    let w := run (next Firewall.call) {} calls
    (trace Firewall.call {} calls).map (·.2.isOk) = [true, true] ∧
    ∃ a, Go.parseIP "2001:db8::1" = some a ∧
      (installed w.ran).countP (fun t => Go.parseIP t = some a) = 2 := by
  refine ⟨by decide +kernel, 0x20010db8000000000000000000000001#128, by decide +kernel, ?_⟩
  decide +kernel

end ArgusEdr.Respond
