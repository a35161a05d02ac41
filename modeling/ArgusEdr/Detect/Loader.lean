import ArgusEdr.Detect.Rule
import ArgusEdr.Go.Directory
import ArgusEdr.Model.Bundle

/-!
# Loading a rule directory (`internal/detect/loader.go`)

`LoadDir` takes the `*.yaml` files of a directory in the order of their names, decodes and compiles
each, refuses a rule id it has seen, and returns the rules sorted by id. The YAML decoder is a parameter.
`Loading` is what the loop carries from file to file; the control plane's reload runs the same loop.

The directory part of the paths in the error texts is left out.
-/

namespace ArgusEdr.Detect

open List

open Go (Library Fault Bytes Directory)

/-! ## The files of a rule directory -/

def isRuleFile (name : String) : Bool := Go.hasSuffix name ".yaml"

def filesOf (d : Directory) (names : List String) : List RuleFile :=
  names.filterMap fun name => (d.read name).map fun content => { name, content }

theorem mem_filesOf_glob (d : Directory) (file : RuleFile) :
    file ∈ filesOf d (d.glob ".yaml") ↔
      d.read file.name = some file.content ∧ isRuleFile file.name = true := by
  simp only [filesOf, mem_filterMap, Directory.mem_glob_iff, Option.map_eq_some_iff, isRuleFile]
  constructor
  · rintro ⟨name, ⟨-, hsuffix⟩, content, hread, rfl⟩
    exact ⟨hread, hsuffix⟩
  · rintro ⟨hread, hsuffix⟩
    exact ⟨file.name, ⟨⟨_, hread⟩, hsuffix⟩, file.content, hread, rfl⟩

variable {d : Directory} {files : List RuleFile} {bundle : Bundle}

theorem map_name_filesOf {names : List String}
    (h : ∀ name ∈ names, ∃ content, d.read name = some content) :
    (filesOf d names).map RuleFile.name = names := by
  induction names with
  | nil => rfl
  | cons name names ih =>
    obtain ⟨content, hread⟩ := h name mem_cons_self
    simp only [filesOf, filterMap_cons, hread, Option.map_some, map_cons]
    exact congrArg (name :: ·) (ih fun n hn => h n (mem_cons_of_mem name hn))

theorem map_name_filesOf_glob (d : Directory) :
    (filesOf d (d.glob ".yaml")).map RuleFile.name = d.glob ".yaml" :=
  map_name_filesOf fun name hname => ((d.mem_glob_iff ".yaml" name).mp hname).1

/-! ## Files written over a directory -/

def putAll (d : Directory) (files : List RuleFile) : Directory :=
  files.foldl (fun d file => d.put (Go.base file.name) file.content) d

theorem putAll_cons (d : Directory) (file : RuleFile) (files : List RuleFile) :
    putAll d (file :: files) = putAll (d.put (Go.base file.name) file.content) files := rfl

theorem read_putAll_of_not_mem {name : String}
    (h : name ∉ files.map fun file => Go.base file.name) :
    (putAll d files).read name = d.read name := by
  induction files generalizing d with
  | nil => rfl
  | cons file files ih =>
    rw [map_cons, mem_cons, not_or] at h
    rw [putAll_cons, ih h.2]
    by_cases hentry : Go.IsEntryName (Go.base file.name)
    · rw [Directory.read_put hentry, if_neg (Ne.symm h.1)]
    · rw [Directory.put, dif_neg hentry]

theorem read_putAll_of_mem {file : RuleFile} (hnodup : (files.map RuleFile.name).Nodup)
    (hentry : ∀ f ∈ files, Go.IsEntryName f.name) (h : file ∈ files) :
    (putAll d files).read file.name = some file.content := by
  induction files generalizing d with
  | nil => cases h
  | cons f files ih =>
    rw [map_cons, nodup_cons] at hnodup
    have hentry' := fun g hg => hentry g (mem_cons_of_mem f hg)
    rw [putAll_cons]
    rcases mem_cons.mp h with rfl | h
    · have hbase := Go.base_of_isEntryName (hentry file mem_cons_self)
      have hnot : file.name ∉ files.map fun f => Go.base f.name := by
        intro hmem
        obtain ⟨g, hg, heq⟩ := mem_map.mp hmem
        rw [Go.base_of_isEntryName (hentry' g hg)] at heq
        exact hnodup.1 (mem_map.mpr ⟨g, hg, heq⟩)
      rw [read_putAll_of_not_mem hnot, hbase,
        Directory.read_put (hentry file mem_cons_self), if_pos rfl]
    · exact ih hnodup.2 hentry' h

def leftovers (d : Directory) (bundle : Bundle) : List RuleFile :=
  (filesOf d (d.glob ".yaml")).filter fun file => file.name ∉ bundle.files.map RuleFile.name

theorem mem_leftovers (d : Directory) (bundle : Bundle) (file : RuleFile) :
    file ∈ leftovers d bundle ↔ (d.read file.name = some file.content ∧
      isRuleFile file.name = true) ∧ file.name ∉ bundle.files.map RuleFile.name := by
  rw [leftovers, mem_filter, mem_filesOf_glob, decide_eq_true_eq]

/-- After a well-formed bundle has been written over it, a directory holds the bundle's file
under each name of the bundle, and under every other name what it held. -/
theorem read_putAll_iff (d : Directory) (hb : bundle.WellFormed) (file : RuleFile) :
    (putAll d bundle.files).read file.name = some file.content ↔
      file ∈ bundle.files ∨
        (d.read file.name = some file.content ∧ file.name ∉ bundle.files.map RuleFile.name) := by
  by_cases hname : file.name ∈ bundle.files.map RuleFile.name
  · obtain ⟨f, hf, heq⟩ := mem_map.mp hname
    have hread : (putAll d bundle.files).read file.name = some f.content := by
      rw [← heq]
      exact read_putAll_of_mem hb.nodup hb.isEntryName hf
    rw [hread, Option.some.injEq]
    constructor
    · intro hcontent
      have hfile : f = file := RuleFile.ext heq hcontent
      exact Or.inl (hfile ▸ hf)
    · rintro (hmem | ⟨-, hnot⟩)
      · -- the names of the bundle are distinct, so this is the file just read
        rw [inj_on_of_nodup_map hb.nodup hf hmem heq]
      · exact absurd hname hnot
  · have hbase : file.name ∉ bundle.files.map fun f => Go.base f.name := by
      rwa [map_congr_left fun f hf => Go.base_of_isEntryName (hb.isEntryName f hf)]
    rw [read_putAll_of_not_mem hbase]
    constructor
    · intro hread
      exact Or.inr ⟨hread, hname⟩
    · rintro (hmem | ⟨hread, -⟩)
      · exact absurd (mem_map_of_mem hmem) hname
      · exact hread

theorem nodup_filesOf_glob (d : Directory) : (filesOf d (d.glob ".yaml")).Nodup := by
  refine Nodup.of_map RuleFile.name ?_
  rw [map_name_filesOf_glob]
  exact d.glob_nodup _

/-- After a well-formed bundle has been written over it, the rule files of a directory are
those of the bundle and the leftovers. -/
theorem filesOf_putAll_perm (d : Directory) (hb : bundle.WellFormed) :
    (filesOf (putAll d bundle.files) ((putAll d bundle.files).glob ".yaml")).Perm
      ((bundle.files.filter fun file => isRuleFile file.name) ++ leftovers d bundle) := by
  have hdisjoint : ((bundle.files.filter fun file => isRuleFile file.name) ++
      leftovers d bundle).Nodup := by
    refine nodup_append'.mpr
      ⟨(hb.nodup.of_map RuleFile.name).filter _, (nodup_filesOf_glob d).filter _, ?_⟩
    intro file hbundle hleft
    exact ((mem_leftovers d bundle file).mp hleft).2
      (mem_map_of_mem (mem_of_mem_filter hbundle))
  -- neither side lists a file twice, so it is enough that they list the same files
  rw [perm_ext_iff_of_nodup (nodup_filesOf_glob _) hdisjoint]
  intro file
  rw [mem_filesOf_glob, read_putAll_iff d hb, mem_append, mem_leftovers, mem_filter,
    or_and_right, and_right_comm]

theorem filesOf_putAll_empty (hb : bundle.WellFormed)
    (hsorted : ((bundle.files.filter fun file => isRuleFile file.name).map RuleFile.name).Pairwise
      (· < ·)) :
    filesOf (putAll .empty bundle.files) ((putAll .empty bundle.files).glob ".yaml") =
      bundle.files.filter fun file => isRuleFile file.name := by
  have hnone : leftovers .empty bundle = [] := by
    rw [eq_nil_iff_forall_not_mem]
    intro file hfile
    have hread := ((mem_leftovers _ _ _).mp hfile).1.1
    rw [Directory.read_empty] at hread
    cases hread
  have hperm := filesOf_putAll_perm .empty hb
  rw [hnone, append_nil] at hperm
  -- both lists are in the order of the names
  have hglob : (filesOf (putAll .empty bundle.files)
      ((putAll .empty bundle.files).glob ".yaml")).Pairwise fun f g => f.name < g.name := by
    rw [← pairwise_map, map_name_filesOf_glob]
    exact Directory.glob_sorted _ _
  exact hperm.eq_of_pairwise (fun f g _ _ hfg hgf => absurd hgf (lt_asymm hfg)) hglob
    (pairwise_map.mp hsorted)

/-! ## The loop -/

section
variable [Library]

abbrev Decoder := Bytes → Except Go.Error (List RuleDoc)

/-- A fault with the file and the rule it concerns; a panic stays a panic. -/
def inRule (name id : String) : Fault → Fault
  | .err e => .err (.wrapf "%s: rule %s: %w" [name, id] e)
  | .nilDereference => .nilDereference

def compileDocs (name : String) : List RuleDoc → Except Fault (List Rule)
  | [] => .ok []
  | doc :: docs =>
    match compileRule doc with
    | .error f => .error (inRule name doc.id f)
    | .ok rule => (compileDocs name docs).map (rule :: ·)

def loadFile (decode : Decoder) (file : RuleFile) : Except Fault (List Rule) :=
  match decode file.content with
  | .error err => .error (.err (.wrapf "parse %s: %w" [file.name] err))
  | .ok docs => compileDocs file.name docs

/-- What the loop of `LoadDir` carries: the rules so far, and the file each id came from. -/
structure Loading where
  rules : List Rule := []
  seen : List (String × String) := []

def addRule (name : String) (l : Loading) (rule : Rule) : Except Fault Loading :=
  match l.seen.lookup rule.id with
  | some other =>
    .error (.err (.errorf "duplicate rule id %s in %s and %s" [rule.id, other, name]))
  | none => .ok { rules := l.rules ++ [rule], seen := (rule.id, name) :: l.seen }

def addRules (name : String) : Loading → List Rule → Except Fault Loading
  | l, [] => .ok l
  | l, rule :: rules =>
    match addRule name l rule with
    | .error f => .error f
    | .ok l' => addRules name l' rules

def addFile (decode : Decoder) (l : Loading) (file : RuleFile) : Except Fault Loading :=
  match loadFile decode file with
  | .error f => .error f
  | .ok rules => addRules file.name l rules

def addFiles (decode : Decoder) : Loading → List RuleFile → Except Fault Loading
  | l, [] => .ok l
  | l, file :: files =>
    match addFile decode l file with
    | .error f => .error f
    | .ok l' => addFiles decode l' files

def finish (l : Loading) : Except Fault (List Rule) :=
  if l.rules.isEmpty then .error (.err (.errorf "no rules found in %s" []))
  else .ok (l.rules.insertionSort fun a b => a.id ≤ b.id)

/-- `LoadDir` on the files it found, in order. -/
def loadFiles (decode : Decoder) (files : List RuleFile) : Except Fault (List Rule) :=
  match addFiles decode {} files with
  | .error f => .error f
  | .ok l => finish l

def loadDir (decode : Decoder) (d : Directory) : Except Fault (List Rule) :=
  loadFiles decode (filesOf d (d.glob ".yaml"))

/-! ## The rules of a load -/

def rulesOf (decode : Decoder) (file : RuleFile) : List Rule :=
  match loadFile decode file with
  | .ok rules => rules
  | .error _ => []

variable {decode : Decoder} {file : RuleFile} {rules : List Rule} {l l' : Loading}

theorem rulesOf_of_loadFile (h : loadFile decode file = .ok rules) :
    rulesOf decode file = rules := by
  simp [rulesOf, h]

theorem addRules_ok {name : String} (h : addRules name l rules = .ok l') :
    l'.rules = l.rules ++ rules := by
  induction rules generalizing l with
  | nil =>
    cases h
    simp
  | cons rule rules ih =>
    simp only [addRules, addRule] at h
    cases hseen : l.seen.lookup rule.id with
    | some => rw [hseen] at h; cases h
    | none =>
      rw [hseen] at h
      rw [ih h, append_assoc]
      rfl

theorem addFile_ok (h : addFile decode l file = .ok l') :
    loadFile decode file = .ok (rulesOf decode file) ∧
      l'.rules = l.rules ++ rulesOf decode file := by
  unfold addFile at h
  cases hload : loadFile decode file with
  | error => rw [hload] at h; cases h
  | ok =>
    rw [hload] at h
    rw [rulesOf_of_loadFile hload]
    exact ⟨rfl, addRules_ok h⟩

theorem addFiles_ok (h : addFiles decode l files = .ok l') :
    (∀ file ∈ files, loadFile decode file = .ok (rulesOf decode file)) ∧
      l'.rules = l.rules ++ files.flatMap (rulesOf decode) := by
  induction files generalizing l with
  | nil =>
    cases h
    simp
  | cons file files ih =>
    simp only [addFiles] at h
    cases hfile : addFile decode l file with
    | error => rw [hfile] at h; cases h
    | ok =>
      rw [hfile] at h
      obtain ⟨hload, hm⟩ := addFile_ok hfile
      obtain ⟨hrest, hl'⟩ := ih h
      refine ⟨forall_mem_cons.mpr ⟨hload, hrest⟩, ?_⟩
      rw [hl', hm, flatMap_cons, append_assoc]

theorem addFiles_append (decode : Decoder) (l : Loading) (files more : List RuleFile) :
    addFiles decode l (files ++ more) =
      match addFiles decode l files with
      | .error f => .error f
      | .ok l' => addFiles decode l' more := by
  induction files generalizing l with
  | nil => rfl
  | cons file files ih =>
    simp only [cons_append, addFiles]
    cases addFile decode l file with
    | error => rfl
    | ok m => exact ih m

theorem loadFiles_ok (h : loadFiles decode files = .ok rules) :
    (∀ file ∈ files, loadFile decode file = .ok (rulesOf decode file)) ∧
      rules.Perm (files.flatMap (rulesOf decode)) := by
  unfold loadFiles at h
  cases hadd : addFiles decode {} files with
  | error => rw [hadd] at h; cases h
  | ok =>
    rw [hadd] at h
    obtain ⟨hload, hrules⟩ := addFiles_ok hadd
    refine ⟨hload, ?_⟩
    unfold finish at h
    dsimp only at h
    split_ifs at h
    cases h
    refine (perm_insertionSort _ _).trans ?_
    rw [hrules]
    exact List.Perm.refl _

theorem exists_loadFiles_singleton_iff {doc : RuleDoc} (h : decode file.content = .ok [doc]) :
    (∃ rules, loadFiles decode [file] = .ok rules) ↔ ∃ rule, compileRule doc = .ok rule := by
  simp only [loadFiles, addFiles, addFile, loadFile, h, compileDocs]
  cases compileRule doc with
  | error => simp
  | ok => simp [Except.map, addRules, addRule, finish]

end

/-- A decoder for concrete runs: a file of one byte holds one rule, named after it, an empty
file holds none, and a longer one is malformed. -/
def tinyDecoder : @Decoder .plain :=
  letI : Library := .plain
  fun content =>
    match content with
    | [] => .ok []
    | [n] => .ok
      [{ id := "R-" ++ n.toNat.repr
         severity := "low"
         condition := some (.leaf "process.name" "exists" .null) }]
    | _ => .error (.errorf "did not find expected node content" [])

end ArgusEdr.Detect
