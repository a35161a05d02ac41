import ArgusEdr.Agent.RuleSync

/-!
# What a sync leaves behind

A sync that is not applied (`failed_sync_keeps_engine`), and one that is
(`applied_rules_iff_no_leftovers`).
-/

namespace ArgusEdr.RuleSync

open List

open Go (Library Fault Directory Bytes)
open Detect (Rule Decoder loadDir loadFile rulesOf isRuleFile putAll leftovers
  read_putAll_of_not_mem mem_leftovers filesOf_putAll_perm tinyDecoder)

/-! ## The writes -/

theorem writeFile_cases (d : Directory) (name : String) (content : Bytes)
    (outcome : Directory.WriteOutcome) :
    (d.writeFile name content outcome = (d.put name content, .ok ())) ∨
      ∃ err, d.writeFile name content outcome = (d, .error err) ∨
        ∃ len, d.writeFile name content outcome = (d.put name (content.take len), .error err) := by
  unfold Directory.writeFile
  -- a name no file can have fails before anything is opened
  split_ifs with h
  · cases outcome with
    | written => exact Or.inl rfl
    | openFailed err => exact Or.inr ⟨err, Or.inl rfl⟩
    | cutShort len err => exact Or.inr ⟨err, Or.inr ⟨len, rfl⟩⟩
  · exact Or.inr ⟨_, Or.inl rfl⟩

variable {d d' : Directory} {files : List RuleFile} {write : ℕ → Directory.WriteOutcome}

theorem writeFiles_ok (h : writeFiles d files write = (d', .ok ())) : d' = putAll d files := by
  induction files generalizing d write with
  | nil =>
    cases h
    rfl
  | cons file files ih =>
    simp only [writeFiles] at h
    rcases writeFile_cases d (Go.base file.name) file.content (write 0) with
      hw | ⟨err, hw | ⟨len, hw⟩⟩
    · rw [hw] at h
      exact ih h
    all_goals
      rw [hw] at h
      cases h

/-- The directory after the files up to the `k`-th have been written, and of that one nothing
or the first bytes. -/
def WrittenUpTo (d d' : Directory) (files : List RuleFile) (k : ℕ) : Prop :=
  d' = putAll d (files.take k) ∨
    ∃ (file : RuleFile) (len : ℕ), files[k]? = some file ∧
      d' = (putAll d (files.take k)).put (Go.base file.name) (file.content.take len)

theorem writtenUpTo_length (d : Directory) (files : List RuleFile) :
    WrittenUpTo d (putAll d files) files files.length :=
  Or.inl (by rw [take_length])

theorem writeFiles_error {err : Go.Error} (h : writeFiles d files write = (d', .error err)) :
    ∃ k < files.length, WrittenUpTo d d' files k := by
  induction files generalizing d write with
  | nil => cases h
  | cons file files ih =>
    simp only [writeFiles] at h
    rcases writeFile_cases d (Go.base file.name) file.content (write 0) with
      hw | ⟨err', hw | ⟨len, hw⟩⟩
    · -- this file is written, and the failure is further on
      rw [hw] at h
      obtain ⟨k, hk, hd'⟩ := ih h
      refine ⟨k + 1, Nat.succ_lt_succ hk, ?_⟩
      rcases hd' with hd' | ⟨f, len, hf, hd'⟩
      · exact Or.inl hd'
      · exact Or.inr ⟨f, len, hf, hd'⟩
    · rw [hw] at h
      cases h
      exact ⟨0, Nat.succ_pos _, Or.inl rfl⟩
    · rw [hw] at h
      cases h
      exact ⟨0, Nat.succ_pos _, Or.inr ⟨file, len, rfl, rfl⟩⟩

theorem read_of_writtenUpTo {k : ℕ} (h : WrittenUpTo d d' files k) {name : String}
    (hname : name ∉ files.map fun file => Go.base file.name) : d'.read name = d.read name := by
  have htake : name ∉ (files.take k).map fun file => Go.base file.name := fun hmem =>
    hname (((take_sublist k files).map _).subset hmem)
  rcases h with rfl | ⟨file, len, hfile, rfl⟩
  · exact read_putAll_of_not_mem htake
  · have hne : Go.base file.name ≠ name := fun heq =>
      hname (mem_map.mpr ⟨file, mem_of_getElem? hfile, heq⟩)
    by_cases hentry : Go.IsEntryName (Go.base file.name)
    · rw [Directory.read_put hentry, if_neg hne, read_putAll_of_not_mem htake]
    · rw [Directory.put, dif_neg hentry, read_putAll_of_not_mem htake]

section
variable [Library] (decode : Decoder) (decodePolicy : Bytes → Except Go.Error Policy.Document)

/-! ## A sync that is not applied -/

theorem install_cases (a : Agent) (env : Env) (bundle : Bundle) :
    (∃ err k, k ≤ bundle.files.length ∧ ∃ d, WrittenUpTo a.rulesDir d bundle.files k ∧
      install decode decodePolicy a env bundle = ({ a with rulesDir := d }, .writeFailed err)) ∨
    (∃ fault, install decode decodePolicy a env bundle =
      ({ a with rulesDir := putAll a.rulesDir bundle.files }, .compileFailed fault)) ∨
    ∃ rules, loadDir decode (putAll a.rulesDir bundle.files) = .ok rules ∧
      install decode decodePolicy a env bundle =
        ({ rulesDir := putAll a.rulesDir bundle.files
           engine := rules
           rulesVersion := bundle.version
           responder := Posture.applyPolicy decodePolicy bundle.files a.responder }, .applied) := by
  unfold install writeRuleFiles
  cases hmkdir : env.mkdir with
  | error => exact Or.inl ⟨_, 0, Nat.zero_le _, a.rulesDir, Or.inl rfl, rfl⟩
  | ok =>
    dsimp only
    cases hwrite : writeFiles a.rulesDir bundle.files env.write with
    | mk d result =>
      cases result with
      | error err =>
        obtain ⟨k, hk, hd⟩ := writeFiles_error hwrite
        exact Or.inl ⟨err, k, hk.le, d, hd, rfl⟩
      | ok =>
        have hd := writeFiles_ok hwrite
        subst hd
        -- everything is on disk from here on, whatever the load makes of it
        refine Or.inr ?_
        unfold loadEngine
        cases env.readBack with
        | some => exact Or.inl ⟨_, rfl⟩
        | none =>
          dsimp only
          cases hload : loadDir decode (putAll a.rulesDir bundle.files) with
          | error fault => exact Or.inl ⟨fault, rfl⟩
          | ok rules => exact Or.inr ⟨rules, rfl, rfl⟩

/-- A sync that is applied held a changed bundle and loaded the directory it wrote it to. -/
theorem syncRules_applied {a : Agent} {env : Env} {reply : Reply}
    (h : (syncRules decode decodePolicy a env (.ok reply)).2 = .applied) :
    reply.unchanged = false ∧ ∃ rules, loadDir decode (putAll a.rulesDir reply.files) = .ok rules ∧
      (syncRules decode decodePolicy a env (.ok reply)).1 =
        { rulesDir := putAll a.rulesDir reply.files
          engine := rules
          rulesVersion := reply.version
          responder := Posture.applyPolicy decodePolicy reply.files a.responder } := by
  unfold syncRules at h ⊢
  dsimp only at h ⊢
  cases hunchanged : reply.unchanged with
  | true =>
    rw [hunchanged, if_pos rfl] at h
    cases h
  | false =>
    rw [hunchanged, if_neg Bool.false_ne_true] at h
    rw [if_neg Bool.false_ne_true]
    rcases install_cases decode decodePolicy a env reply.bundle with
      ⟨err, k, -, d, -, heq⟩ | ⟨fault, heq⟩ | ⟨rules, hload, heq⟩
    · rw [heq] at h
      cases h
    · rw [heq] at h
      cases h
    · rw [heq]
      exact ⟨rfl, rules, hload, rfl⟩

/-- A sync that is not applied leaves what runs alone, and the directory too unless it got to
the writes. -/
theorem syncRules_not_applied {a : Agent} {env : Env} {pull : Except Go.Error Reply}
    (h : (syncRules decode decodePolicy a env pull).2 ≠ .applied) :
    ∃ d, (syncRules decode decodePolicy a env pull).1 = { a with rulesDir := d } ∧
      (d = a.rulesDir ∨ ∃ reply, pull = .ok reply ∧ reply.unchanged = false ∧
        ∃ k ≤ reply.files.length, WrittenUpTo a.rulesDir d reply.files k) := by
  cases pull with
  | error => exact ⟨a.rulesDir, rfl, Or.inl rfl⟩
  | ok reply =>
    unfold syncRules at h ⊢
    dsimp only at h ⊢
    cases hunchanged : reply.unchanged with
    | true => exact ⟨a.rulesDir, rfl, Or.inl rfl⟩
    | false =>
      rw [hunchanged, if_neg Bool.false_ne_true] at h
      rw [if_neg Bool.false_ne_true]
      rcases install_cases decode decodePolicy a env reply.bundle with
        ⟨err, k, hk, d, hd, heq⟩ | ⟨fault, heq⟩ | ⟨rules, -, heq⟩
      · rw [heq]
        exact ⟨d, rfl, Or.inr ⟨reply, rfl, hunchanged, k, hk, hd⟩⟩
      · -- a bundle that does not load has been written in full
        rw [heq]
        exact ⟨_, rfl, Or.inr ⟨reply, rfl, hunchanged, reply.files.length, le_rfl,
          writtenUpTo_length a.rulesDir reply.files⟩⟩
      · rw [heq] at h
        exact absurd rfl h

end

/-! ## A sync that is applied -/

theorem perm_left_iff {α : Type*} {xs ys zs : List α} (h : xs.Perm (ys ++ zs)) :
    xs.Perm ys ↔ zs = [] := by
  constructor
  · intro hys
    have hlen := (h.symm.trans hys).length_eq
    rw [length_append, Nat.add_eq_left] at hlen
    exact length_eq_zero_iff.mp hlen
  · rintro rfl
    rwa [append_nil] at h

section
variable [Library] (decode : Decoder) (decodePolicy : Bytes → Except Go.Error Policy.Document)

/-- The rules of an engine loaded after a bundle was written: those of the bundle and those
of the leftovers. -/
theorem loadDir_putAll {bundle : Bundle} (hb : bundle.WellFormed) {rules : List Rule}
    (h : loadDir decode (putAll d bundle.files) = .ok rules) :
    rules.Perm (bundleRules decode bundle.files ++
        (leftovers d bundle).flatMap (rulesOf decode)) ∧
      ∀ file ∈ leftovers d bundle, loadFile decode file = .ok (rulesOf decode file) := by
  obtain ⟨hload, hperm⟩ := Detect.loadFiles_ok h
  have hfiles := filesOf_putAll_perm d hb
  constructor
  · rw [bundleRules, ← flatMap_append]
    exact hperm.trans (hfiles.flatMap_right _)
  · intro file hfile
    exact hload file (hfiles.mem_iff.mpr (mem_append_right _ hfile))

/-- A sync that records the bundle's version runs exactly the rules of the bundle's `*.yaml`
files if and only if every other `*.yaml` file that was in the directory holds no rule. -/
theorem applied_rules_iff_no_leftovers (a : Agent) (env : Env) (reply : Reply)
    (hbundle : reply.bundle.WellFormed)
    (happlied : (syncRules decode decodePolicy a env (.ok reply)).2 = .applied) :
    (syncRules decode decodePolicy a env (.ok reply)).1.engine.Perm
        (bundleRules decode reply.files) ↔
      ∀ name content, a.rulesDir.read name = some content → isRuleFile name = true →
        name ∉ reply.files.map RuleFile.name → loadFile decode { name, content } = .ok [] := by
  obtain ⟨-, rules, hload, hagent⟩ := syncRules_applied decode decodePolicy happlied
  obtain ⟨hperm, hok⟩ := loadDir_putAll decode hbundle hload
  rw [hagent]
  show rules.Perm (bundleRules decode reply.bundle.files) ↔ _
  -- the leftovers' rules come on top of the bundle's, so there must be none
  rw [perm_left_iff hperm, flatMap_eq_nil_iff]
  constructor
  · intro h name content hread hyaml hname
    have hmem := (mem_leftovers a.rulesDir reply.bundle { name, content }).mpr
      ⟨⟨hread, hyaml⟩, hname⟩
    rw [hok _ hmem, h _ hmem]
  · intro h file hfile
    obtain ⟨⟨hread, hyaml⟩, hname⟩ := (mem_leftovers _ _ _).mp hfile
    exact Detect.rulesOf_of_loadFile (h file.name file.content hread hyaml hname)

end

/-! ## Concrete syncs -/

def agentWith (name : String) (rule : UInt8) : @Agent .plain :=
  letI : Library := .plain
  { rulesDir := Directory.empty.put name [rule]
    engine := rulesOf tinyDecoder { name, content := [rule] }
    rulesVersion := "v1"
    responder := .new .off .off [] }

def renamed : Reply where
  version := "v2"
  files := [{ name := "new.yaml", content := [2] }]

theorem renamed_wellFormed : renamed.bundle.WellFormed where
  nodup := by decide
  isEntryName := by decide

/-- An agent whose directory holds only a file the bundle replaces runs the bundle. -/
theorem applied_rules_of_replaced_file :
    letI : Library := .plain
    (syncRules tinyDecoder (fun _ => .ok {}) (agentWith "new.yaml" 1) {}
      (.ok renamed)).1.engine.Perm (bundleRules tinyDecoder renamed.files) :=
  letI : Library := .plain
  (applied_rules_iff_no_leftovers tinyDecoder (fun _ => .ok {}) (agentWith "new.yaml" 1)
    {} renamed renamed_wellFormed (by decide)).mpr (by
      intro name content hread _ hname
      rw [show (agentWith "new.yaml" 1).rulesDir = Directory.empty.put "new.yaml" [1] from rfl,
        Directory.read_put (by decide)] at hread
      split_ifs at hread with h
      · subst h
        exact absurd (by decide) hname
      · simp at hread)

/-- The rule of a file the control plane no longer has stays in the engine. -/
theorem renamed_keeps_old_rule :
    letI : Library := .plain
    let after := syncRules tinyDecoder (fun _ => .ok {}) (agentWith "old.yaml" 1) {}
      (.ok renamed)
    after.2 = .applied ∧ after.1.rulesVersion = "v2" ∧
      after.1.engine.map Rule.id = ["R-1", "R-2"] ∧
      (bundleRules tinyDecoder renamed.files).map Rule.id = ["R-2"] := by
  decide

def malformed : Reply where
  version := "v2"
  files := [{ name := "a.yaml", content := [0, 0] }]

end ArgusEdr.RuleSync
