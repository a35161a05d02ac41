import ArgusEdr.Go.Strconv
import ArgusEdr.Go.Strings
import ArgusEdr.Lib.Framing
import ArgusEdr.Server.Ruleset

/-!
# What the control plane serves

A reload carries two facts from step to step. `Shaped` is about names and holds under every
interleaving: what a reload collects are the `*.yaml` files of one listing, in order, with the posture
document at most at the end. `Checked` is about contents: what it has validated loads, and what it
collects is what it has validated. The second needs `Undisturbed`: a file replaced between the two passes
is served without having been validated (`swapped_file_is_served`).
-/

namespace ArgusEdr.Ruleset

open List

open Policy (fileName)
open Go (Library Fault Bytes Directory)
open Detect (Decoder Loading isRuleFile addFiles loadFiles tinyDecoder)
open Runs

/-! ## The names of a bundle -/

structure RuleNames (names : List String) : Prop where
  sorted : names.Pairwise (· < ·)
  isRuleFile : ∀ name ∈ names, isRuleFile name = true

theorem ruleNames_glob (d : Directory) : RuleNames (d.glob ".yaml") where
  sorted := d.glob_sorted _
  isRuleFile := fun _ hname => ((d.mem_glob_iff _ _).mp hname).2

structure Collected (files : List RuleFile) : Prop where
  names : RuleNames (files.map RuleFile.name)
  isEntryName : ∀ file ∈ files, Go.IsEntryName file.name

/-- What is swapped in: the rule files collected, and the posture document if there is one. -/
def Distributable (files : List RuleFile) : Prop :=
  ∃ rules, Collected rules ∧
    (files = rules ∨ ∃ content, files = rules ++ [{ name := fileName, content }])

variable {files : List RuleFile}

theorem Collected.filter_isRuleFile (h : Collected files) :
    files.filter (fun file => isRuleFile file.name) = files :=
  filter_eq_self.mpr fun _ hfile => h.names.isRuleFile _ (mem_map_of_mem hfile)

theorem isRuleFile_policy_fileName : isRuleFile fileName = false := by decide

theorem isEntryName_policy_fileName : Go.IsEntryName fileName := by decide

theorem Collected.filter_append_policy (h : Collected files) (content : Bytes) :
    (files ++ [RuleFile.mk fileName content]).filter (fun file => isRuleFile file.name) =
      files := by
  rw [filter_append, h.filter_isRuleFile, filter_singleton, isRuleFile_policy_fileName]
  exact append_nil _

theorem Collected.wellFormed (h : Collected files) (version : String) :
    ({ version, files } : Bundle).WellFormed where
  nodup := h.names.sorted.imp fun hlt => ne_of_lt hlt
  isEntryName := h.isEntryName

theorem Distributable.wellFormed {b : Bundle} (h : Distributable b.files) : b.WellFormed := by
  obtain ⟨version, files⟩ := b
  obtain ⟨rules, hrules, hfiles | ⟨content, hfiles⟩⟩ := h
  · obtain rfl : files = rules := hfiles
    exact hrules.wellFormed version
  · obtain rfl : files = rules ++ [RuleFile.mk fileName content] := hfiles
    have hwf := hrules.wellFormed version
    constructor
    · rw [map_append, nodup_append']
      refine ⟨hwf.nodup, nodup_singleton _, ?_⟩
      intro name hname hpolicy
      -- the posture document cannot have the name of a rule file
      have hyaml := hrules.names.isRuleFile name hname
      rw [mem_singleton.mp hpolicy, isRuleFile_policy_fileName] at hyaml
      cases hyaml
    · intro file hfile
      rcases mem_append.mp hfile with hfile | hfile
      · exact hwf.isEntryName file hfile
      · rw [mem_singleton.mp hfile]
        exact isEntryName_policy_fileName

theorem Distributable.sorted (h : Distributable files) :
    ((files.filter fun file => isRuleFile file.name).map RuleFile.name).Pairwise (· < ·) := by
  obtain ⟨rules, hrules, rfl | ⟨content, rfl⟩⟩ := h
  · rw [hrules.filter_isRuleFile]
    exact hrules.names.sorted
  · rw [hrules.filter_append_policy]
    exact hrules.names.sorted

section
variable [Library]

/-! ## Names, under every interleaving -/

def Shaped : Reload → Prop
  | .collect _ todo files => Collected files ∧ RuleNames (files.map RuleFile.name ++ todo)
  | .loadPolicy files => Collected files
  | .swap files => Distributable files
  | .scan | .validate .. | .rescan _ | .done | .failed _ => True

variable (decode : Decoder) (decodePolicy : Bytes → Except Go.Error Policy.Document)
  (sha256 : Bytes → Bytes) (cfg : Config)

theorem shaped_validateNext (s : Server) (name : String) (todo : List String) (l : Loading)
    (files : List RuleFile) : Shaped (validateNext decode cfg s name todo l files) := by
  unfold validateNext
  cases s.dir.read name with
  | none => trivial
  | some content =>
    dsimp only
    cases Detect.addFile decode l { name, content } with
    | error | ok => trivial

theorem shaped_validated (l : Loading) (files : List RuleFile) :
    Shaped (validated cfg l files) := by
  unfold validated
  cases Detect.finish l with
  | error | ok => trivial

variable {s : Server} {name : String} {valid : List RuleFile} {todo : List String} {r : Reload}
  {w : World} {e : Event} {l : Loading}

theorem shaped_collectNext (hfiles : Collected files)
    (hnames : RuleNames (files.map RuleFile.name ++ name :: todo)) :
    Shaped (collectNext s name valid todo files) := by
  unfold collectNext
  cases hread : s.dir.read name with
  | none => trivial
  | some content =>
    -- the name moves from what is listed to what is collected; the listing stays in order
    have hall : RuleNames ((files ++ [RuleFile.mk name content]).map RuleFile.name ++ todo) := by
      rwa [map_append, append_assoc]
    refine ⟨⟨⟨?_, ?_⟩, ?_⟩, hall⟩
    · exact (pairwise_append.mp hall.sorted).1
    · exact fun n hn => hall.isRuleFile n (mem_append_left _ hn)
    · intro file hfile
      rcases mem_append.mp hfile with hfile | hfile
      · exact hfiles.isEntryName file hfile
      · rw [mem_singleton.mp hfile]
        exact Directory.isEntryName_of_read hread

theorem shaped_loadPolicy (s : Server) (h : Collected files) :
    Shaped (loadPolicy decodePolicy cfg s files) := by
  unfold loadPolicy
  split_ifs
  · exact ⟨files, h, Or.inl rfl⟩
  · cases s.policy with
    | none => trivial
    | some content =>
      dsimp only
      cases Policy.parse decodePolicy content with
      | error => trivial
      | ok => exact ⟨files, h, Or.inr ⟨content, rfl⟩⟩

def Served (P : List RuleFile → Prop) (s : Server) : Prop := ∀ b ∈ s.bundle, P b.files

theorem shaped_advance (hs : Served Distributable s) (hr : Shaped r) :
    Served Distributable (advance decode decodePolicy sha256 cfg s r).1 ∧
      Shaped (advance decode decodePolicy sha256 cfg s r).2 := by
  cases r with
  | scan => exact ⟨hs, trivial⟩
  | validate todo l files =>
    cases todo with
    | nil => exact ⟨hs, shaped_validated cfg l files⟩
    | cons name todo => exact ⟨hs, shaped_validateNext decode cfg s name todo l files⟩
  | rescan =>
    have hempty : Collected [] := ⟨⟨List.Pairwise.nil, by simp⟩, by simp⟩
    exact ⟨hs, hempty, ruleNames_glob s.dir⟩
  | collect valid todo files =>
    cases todo with
    | nil => exact ⟨hs, hr.1⟩
    | cons => exact ⟨hs, shaped_collectNext hr.1 hr.2⟩
  | loadPolicy => exact ⟨hs, shaped_loadPolicy decodePolicy cfg s hr⟩
  | swap =>
    refine ⟨?_, trivial⟩
    rintro b ⟨⟩
    exact hr
  | done | failed => exact ⟨hs, trivial⟩

/-- A property of served bundles and one of the reloads that make them. -/
def Holds (P : List RuleFile → Prop) (J : Reload → Prop) (w : World) : Prop :=
  Served P w.server ∧ ∀ r ∈ w.reloads, J r

/-- Edits and new reloads keep what holds of the bundle served and of every reload, and so does
the step of a reload if `advance` does. -/
theorem holds_step {P : List RuleFile → Prop} {J : Reload → Prop}
    (h : Holds P J w) (hscan : J .scan)
    (hadvance : ∀ n r, e = .advance n → w.reloads[n]? = some r → J r →
      Served P (advance decode decodePolicy sha256 cfg w.server r).1 ∧
        J (advance decode decodePolicy sha256 cfg w.server r).2) :
    Holds P J (step decode decodePolicy sha256 cfg w e) := by
  cases e with
  | put | remove | putPolicy | removePolicy => exact h
  | reload => exact ⟨h.1, Pool.forall_mem_spawn h.2 hscan⟩
  | advance n => exact Pool.advanceAt_invariant h.1 h.2 fun r hr => hadvance n r rfl hr

theorem holds_start (P : List RuleFile → Prop) (J : Reload → Prop) (dir : Directory)
    (policy : Option Bytes) : Holds P J (start dir policy) :=
  ⟨fun _ hb => absurd hb (by simp [start]), by simp [start]⟩

theorem shaped_step (h : Holds Distributable Shaped w) :
    Holds Distributable Shaped (step decode decodePolicy sha256 cfg w e) :=
  holds_step decode decodePolicy sha256 cfg h trivial
    fun _ _ _ _ hr => shaped_advance decode decodePolicy sha256 cfg h.1 hr

theorem shaped_run (dir : Directory) (policy : Option Bytes) (es : List Event) :
    Holds Distributable Shaped
      (run (step decode decodePolicy sha256 cfg) (start dir policy) es) :=
  run_invariant (holds_start _ _ dir policy)
    (fun _ _ h => shaped_step decode decodePolicy sha256 cfg h) es

/-- Every bundle served in any run has files of distinct names, each that of a file. -/
theorem served_wellFormed (dir : Directory) (policy : Option Bytes) (es : List Event) :
    ∀ b ∈ (run (step decode decodePolicy sha256 cfg) (start dir policy) es).server.bundle,
      b.WellFormed :=
  fun b hb => ((shaped_run decode decodePolicy sha256 cfg dir policy es).1 b hb).wellFormed

/-! ## Contents, while nobody edits between the passes -/

/-- `detect.LoadDir` accepts the rule files among `files`. -/
def Loads (files : List RuleFile) : Prop :=
  ∃ rules, loadFiles decode (files.filter fun file => isRuleFile file.name) = .ok rules

theorem accepted_of_loads {b : Bundle} (hb : Distributable b.files) (h : Loads decode b.files) :
    Accepted decode b := by
  obtain ⟨rules, hrules⟩ := h
  refine ⟨rules, ?_⟩
  rw [Detect.loadDir, Detect.filesOf_putAll_empty hb.wellFormed hb.sorted]
  exact hrules

def Checked : Reload → Prop
  | .validate _ l files => addFiles decode {} files = .ok l
  | .rescan files => ∃ rules, loadFiles decode files = .ok rules
  | .collect valid todo files =>
    (∃ rules, loadFiles decode valid = .ok rules) ∧
      ∃ rest, valid = files ++ rest ∧ todo = rest.map RuleFile.name
  | .loadPolicy files => Loads decode files
  | .swap files => Loads decode files
  | .scan | .done | .failed _ => True

theorem checked_validateNext (h : addFiles decode {} files = .ok l) :
    Checked decode (validateNext decode cfg s name todo l files) := by
  unfold validateNext
  cases s.dir.read name with
  | none => trivial
  | some content =>
    dsimp only
    cases hadd : Detect.addFile decode l { name, content } with
    | error => trivial
    | ok l' =>
      show addFiles decode {} (files ++ [⟨name, content⟩]) = .ok l'
      rw [Detect.addFiles_append, h]
      simp only [addFiles, hadd]

theorem checked_validated (h : addFiles decode {} files = .ok l) :
    Checked decode (validated cfg l files) := by
  unfold validated
  cases hfinish : Detect.finish l with
  | error => trivial
  | ok rules =>
    refine ⟨rules, ?_⟩
    rw [loadFiles, h]
    exact hfinish

theorem checked_collectNext (h : Checked decode (.collect valid (name :: todo) files))
    (hsees : SeesValidated s (.collect valid (name :: todo) files)) :
    Checked decode (collectNext s name valid todo files) := by
  obtain ⟨hload, rest, hvalid, hrest⟩ := h
  cases rest with
  | nil => cases hrest
  | cons file rest =>
    rw [map_cons, List.cons.injEq] at hrest
    -- the file read now is the one the first pass took under this name
    have hread : s.dir.read name = some file.content :=
      hsees file (hvalid ▸ mem_append_right files mem_cons_self) hrest.1.symm
    unfold collectNext
    rw [hread]
    refine ⟨hload, rest, ?_, hrest.2⟩
    rw [hvalid, hrest.1, append_assoc]
    rfl

theorem checked_loadPolicy (s : Server) (hfiles : Collected files) (h : Loads decode files) :
    Checked decode (loadPolicy decodePolicy cfg s files) := by
  unfold loadPolicy
  split_ifs
  · exact h
  · cases s.policy with
    | none => trivial
    | some content =>
      dsimp only
      cases Policy.parse decodePolicy content with
      | error => trivial
      | ok =>
        show Loads decode (files ++ [{ name := fileName, content }])
        rw [Loads, hfiles.filter_append_policy]
        rwa [Loads, hfiles.filter_isRuleFile] at h

theorem checked_advance (hs : Served (Loads decode) s) (hshaped : Shaped r) (hr : Checked decode r)
    (hsees : SeesValidated s r) :
    Served (Loads decode) (advance decode decodePolicy sha256 cfg s r).1 ∧
      Checked decode (advance decode decodePolicy sha256 cfg s r).2 := by
  cases r with
  | scan => exact ⟨hs, rfl⟩
  | validate todo l files =>
    cases todo with
    | nil => exact ⟨hs, checked_validated decode cfg hr⟩
    | cons => exact ⟨hs, checked_validateNext decode cfg hr⟩
  | rescan files => exact ⟨hs, hr, files, rfl, hsees⟩
  | collect valid todo files =>
    cases todo with
    | nil =>
      -- the second pass is over: it has collected all that was validated
      obtain ⟨hload, rest, hvalid, hrest⟩ := hr
      obtain rfl := map_eq_nil_iff.mp hrest.symm
      rw [append_nil] at hvalid
      refine ⟨hs, ?_⟩
      show Loads decode files
      rwa [Loads, hshaped.1.filter_isRuleFile, ← hvalid]
    | cons => exact ⟨hs, checked_collectNext decode hr hsees⟩
  | loadPolicy => exact ⟨hs, checked_loadPolicy decode decodePolicy cfg s hshaped hr⟩
  | swap =>
    refine ⟨?_, trivial⟩
    rintro b ⟨⟩
    exact hr
  | done | failed => exact ⟨hs, trivial⟩

theorem checked_step (hshaped : Holds Distributable Shaped w)
    (hchecked : Holds (Loads decode) (Checked decode) w) (he : Undisturbed w e) :
    Holds (Loads decode) (Checked decode) (step decode decodePolicy sha256 cfg w e) := by
  refine holds_step decode decodePolicy sha256 cfg hchecked trivial ?_
  rintro n r rfl hr hJ
  -- the reload that moves is one of those the shape is known of
  exact checked_advance decode decodePolicy sha256 cfg hchecked.1
    (hshaped.2 r (mem_of_getElem? hr)) hJ (he r hr)

theorem checked_run {dir : Directory} {policy : Option Bytes} {es : List Event}
    (h : AllSteps (step decode decodePolicy sha256 cfg) Undisturbed (start dir policy) es) :
    Holds (Loads decode) (Checked decode)
      (run (step decode decodePolicy sha256 cfg) (start dir policy) es) := by
  have hboth : Holds Distributable Shaped
        (run (step decode decodePolicy sha256 cfg) (start dir policy) es) ∧
      Holds (Loads decode) (Checked decode)
        (run (step decode decodePolicy sha256 cfg) (start dir policy) es) :=
    h.invariant (I := fun w => Holds Distributable Shaped w ∧
      Holds (Loads decode) (Checked decode) w) ⟨holds_start _ _ _ _, holds_start _ _ _ _⟩
      fun w e hw he => ⟨shaped_step decode decodePolicy sha256 cfg hw.1,
        checked_step decode decodePolicy sha256 cfg hw.1 hw.2 he⟩
  exact hboth.2

/-- In a run in which no reload's second pass sees anything but what its first pass validated,
every bundle served is accepted by `detect.LoadDir`. -/
theorem served_accepted (dir : Directory) (policy : Option Bytes) (es : List Event)
    (h : AllSteps (step decode decodePolicy sha256 cfg) Undisturbed (start dir policy) es) :
    ∀ b ∈ (run (step decode decodePolicy sha256 cfg) (start dir policy) es).server.bundle,
      Accepted decode b := by
  intro b hb
  have hshaped := (shaped_run decode decodePolicy sha256 cfg dir policy es).1 b hb
  have hloads := (checked_run decode decodePolicy sha256 cfg h).1 b hb
  exact accepted_of_loads decode hshaped hloads

end

/-! ## Concrete runs -/

/-- The steps of one reload of a directory with one rule file, up to its second listing. -/
def firstPass : List Event := [.reload, .advance 0, .advance 0, .advance 0]

/-- The rest of them. -/
def secondPass : List Event := [.advance 0, .advance 0, .advance 0, .advance 0, .advance 0]

def oneRule : Directory := Directory.empty.put "x.yaml" [1]

/-- The control plane after a run over `oneRule`, without a posture document. -/
def afterRun (es : List Event) : @World .plain :=
  letI : Library := .plain
  run (step tinyDecoder (fun _ => .ok {}) id { dir := "rules" }) (start oneRule none) es

theorem served_accepted_oneRule :
    letI : Library := .plain
    (afterRun (firstPass ++ secondPass)).server.bundle.map Bundle.files =
        some [{ name := "x.yaml", content := [1] }] ∧
      ∀ b ∈ (afterRun (firstPass ++ secondPass)).server.bundle,
        Accepted tinyDecoder b :=
  letI : Library := .plain
  ⟨by decide, served_accepted tinyDecoder (fun _ => .ok {}) id { dir := "rules" } oneRule
    none (firstPass ++ secondPass) (by decide)⟩

theorem served_wellFormed_oneRule :
    letI : Library := .plain
    (afterRun (firstPass ++ .put "x.yaml" [0, 0] :: secondPass)).server.bundle.isSome ∧
      ∀ b ∈ (afterRun (firstPass ++ .put "x.yaml" [0, 0] :: secondPass)).server.bundle,
        b.WellFormed :=
  letI : Library := .plain
  ⟨by decide, served_wellFormed tinyDecoder (fun _ => .ok {}) id { dir := "rules" } oneRule none _⟩

/-- A file replaced after it was validated, by one that does not parse, is served. -/
theorem swapped_file_is_served :
    letI : Library := .plain
    ∃ b ∈ (afterRun (firstPass ++ .put "x.yaml" [0, 0] :: secondPass)).server.bundle,
      b.files = [{ name := "x.yaml", content := [0, 0] }] ∧ ¬Accepted tinyDecoder b := by
  let _ : Library := .plain
  refine ⟨(afterRun (firstPass ++ .put "x.yaml" [0, 0] :: secondPass)).server.bundle.get
    (by decide), Option.get_mem _, by decide, ?_⟩
  rintro ⟨rules, hrules⟩
  have hfails : (Detect.loadDir tinyDecoder
      (Detect.putAll .empty [{ name := "x.yaml", content := [0, 0] }])).isOk = false := by
    decide
  have hfiles : ((afterRun (firstPass ++ .put "x.yaml" [0, 0] :: secondPass)).server.bundle.get
    (by decide)).files = [{ name := "x.yaml", content := [0, 0] }] := by decide
  rw [hfiles] at hrules
  rw [hrules] at hfails
  cases hfails

/-! ## The content hash -/

/-- The length of a file as it is written into the hash. -/
def lengthText (n : ℕ) : Bytes := Go.utf8 (Go.formatUint n)

theorem lengthText_injective : Function.Injective lengthText :=
  Go.utf8_injective.comp Go.formatUint_injective

theorem zero_notMem_lengthText (n : ℕ) : (0 : UInt8) ∉ lengthText n := by
  have hdigit : ∀ c ∈ (Go.formatUint n).toList, 48 ≤ c.toNat ∧ c.toNat < 128 := by
    intro c hc
    rw [Go.toList_formatUint] at hc
    have hc' := Nat.isDigit_of_mem_toDigits (by decide) (by decide) hc
    simp only [Char.isDigit, ge_iff_le, Bool.and_eq_true, decide_eq_true_eq, UInt32.le_iff_toNat_le]
      at hc'
    exact ⟨hc'.1, hc'.2.trans_lt (by decide)⟩
  rw [lengthText, Go.utf8_eq_ascii fun c hc => (hdigit c hc).2, Go.ascii, mem_map]
  rintro ⟨c, hc, hzero⟩
  obtain ⟨hlow, hhigh⟩ := hdigit c hc
  have hval := congrArg UInt8.toNat hzero
  rw [UInt8.toNat_ofNat_of_lt' (hhigh.trans (by decide))] at hval
  exact absurd hval (by simp; omega)

def fileBytes (file : RuleFile) : Bytes :=
  Framing.frame 0 lengthText (Go.utf8 file.name) file.content

theorem digestInput_eq (files : List RuleFile) : digestInput files = files.flatMap fileBytes := by
  refine flatMap_congr fun file _ => ?_
  simp [fileBytes, Framing.frame, lengthText]

theorem selfDelimiting_fileBytes :
    Framing.SelfDelimiting (fun file => 0 ∉ Go.utf8 file.name) fileBytes := by
  intro f g u v hf hg h
  obtain ⟨hname, hcontent, hrest⟩ :=
    Framing.frame_append_inj lengthText_injective zero_notMem_lengthText hf hg h
  exact ⟨RuleFile.ext (Go.utf8_injective hname) hcontent, hrest⟩

/-- Two lists of files, with or without a posture document at their end, that give the content
hash the same bytes are the same, if no name holds a NUL. -/
theorem files_of_digestInput {files files' : List RuleFile}
    (hfiles : ∀ file ∈ files, 0 ∉ Go.utf8 file.name)
    (hfiles' : ∀ file ∈ files', 0 ∉ Go.utf8 file.name)
    (h : digestInput files = digestInput files') : files = files' := by
  rw [digestInput_eq, digestInput_eq] at h
  refine selfDelimiting_fileBytes.flatMap_inj (fun file hnil => ?_) hfiles hfiles' h
  simp [fileBytes, Framing.frame] at hnil

/-- A rule file whose content reads like the beginning of another file, and a posture document. -/
theorem files_of_digestInput_withPolicy :
    let files : List RuleFile :=
      [{ name := "a.yaml", content := Go.ascii "b.yaml" ++ [0, 49, 0, 120] },
       { name := fileName, content := [] }]
    (∀ file ∈ files, 0 ∉ Go.utf8 file.name) ∧
      ∀ files', (∀ file ∈ files', 0 ∉ Go.utf8 file.name) →
        digestInput files = digestInput files' → files = files' := by
  have hnames : ∀ name ∈ ["a.yaml", fileName], 0 ∉ Go.utf8 name := by decide
  simp only [forall_mem_cons] at hnames
  refine ⟨by simp [hnames.1, hnames.2.1], fun files' hfiles' h => ?_⟩
  exact files_of_digestInput (by simp [hnames.1, hnames.2.1]) hfiles' h

end ArgusEdr.Ruleset
