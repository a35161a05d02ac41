import ArgusEdr.Detect.Loader
import ArgusEdr.Go.Strings

/-!
# Rule packs (`internal/detect/pack.go`)

A pack is a directory with a manifest and rule files. `loadPack` reads and validates it and takes a
digest of the manifest and then, for each rule file, of its name and content, with nothing between them
(`loadedPacks_agree_iff`). The YAML decoders, SHA-256 and ed25519 are parameters.
-/

namespace ArgusEdr.Pack

open Go (Library Fault Bytes Directory)
open Detect (Rule RuleDoc Decoder loadDir loadFiles)

def packManifestName := "pack.yml"

structure PackManifest where
  name : String
  version : String
  description : String := ""
  author : String := ""
deriving Repr, DecidableEq

def ruleFiles (d : Directory) : List RuleFile := Detect.filesOf d (d.glob ".yaml")

/-- What `packDigest` writes into the hash. -/
def digestInput (d : Directory) (manifestBytes : Bytes) : Bytes :=
  manifestBytes ++ (ruleFiles d).flatMap fun file => Go.utf8 file.name ++ file.content

def packDigest (sha256 : Bytes → Bytes) (d : Directory) (manifestBytes : Bytes) : String :=
  Go.hexString (sha256 (digestInput d manifestBytes))

/-- The signature scheme, on byte strings. -/
structure Ed25519 where
  sign : (privateKey message : Bytes) → Bytes
  verify : (publicKey message signature : Bytes) → Bool

section
variable [Library]

/-- `Pack`. -/
structure Loaded where
  manifest : PackManifest
  rules : List Rule
  digest : String

/-- A failure of `LoadDir` inside `LoadPack`; a panic stays a panic. -/
def rulesFault : Fault → Fault
  | .err e => .err (.wrapf "load pack rules: %w" [] e)
  | .nilDereference => .nilDereference

variable (decodeManifest : Bytes → Except Go.Error PackManifest) (decode : Decoder)
  (sha256 : Bytes → Bytes)

def loadPack (d : Directory) : Except Fault Loaded :=
  match d.read packManifestName with
  | none =>
    .error (.err (.wrapf "read pack manifest: %w" []
      (.errorf "open %s: no such file or directory" [packManifestName])))
  | some manifestBytes =>
    match decodeManifest manifestBytes with
    | .error err => .error (.err (.wrapf "parse pack manifest: %w" [] err))
    | .ok manifest =>
      if manifest.name = "" ∨ manifest.version = "" then
        .error (.err (.errorf "pack manifest needs a name and a version" []))
      else
        match loadDir decode d with
        | .error fault => .error (rulesFault fault)
        | .ok rules => .ok { manifest, rules, digest := packDigest sha256 d manifestBytes }

/-- `Sign`, without the base64 form. -/
def Loaded.sign (scheme : Ed25519) (p : Loaded) (key : Bytes) : Bytes :=
  scheme.sign key (Go.utf8 p.digest)

def Loaded.verify (scheme : Ed25519) (p : Loaded) (signature key : Bytes) : Except Go.Error Unit :=
  if ¬scheme.verify key (Go.utf8 p.digest) signature then
    .error (.errorf "pack signature does not match digest (tampered or wrong key)" [])
  else .ok ()

theorem loadPack_of_loadDir {d : Directory} {m : Bytes} {manifest : PackManifest}
    {rules : List Rule} (hm : d.read packManifestName = some m)
    (hmanifest : decodeManifest m = .ok manifest)
    (hnamed : ¬(manifest.name = "" ∨ manifest.version = ""))
    (hrules : loadDir decode d = .ok rules) :
    loadPack decodeManifest decode sha256 d =
      .ok { manifest, rules, digest := packDigest sha256 d m } := by
  simp only [loadPack, hm, hmanifest, if_neg hnamed, hrules]

theorem loadPack_ok {d : Directory} {p : Loaded}
    (h : loadPack decodeManifest decode sha256 d = .ok p) :
    ∃ manifestBytes, d.read packManifestName = some manifestBytes ∧
      p.digest = packDigest sha256 d manifestBytes := by
  unfold loadPack at h
  cases hread : d.read packManifestName with
  | none =>
    rw [hread] at h
    cases h
  | some manifestBytes =>
    rw [hread] at h
    dsimp only at h
    cases hmanifest : decodeManifest manifestBytes with
    | error =>
      rw [hmanifest] at h
      cases h
    | ok =>
      rw [hmanifest] at h
      dsimp only at h
      split_ifs at h
      cases hrules : loadDir decode d with
      | error =>
        rw [hrules] at h
        cases h
      | ok =>
        rw [hrules] at h
        cases h
        exact ⟨manifestBytes, rfl, rfl⟩

end

/-! ## Where the bytes are cut -/

def pieces (manifestBytes : Bytes) (files : List RuleFile) : List Bytes :=
  manifestBytes :: files.flatMap fun file => [Go.utf8 file.name, file.content]

theorem flatten_pieces (d : Directory) (manifestBytes : Bytes) :
    (pieces manifestBytes (ruleFiles d)).flatten = digestInput d manifestBytes := by
  rw [pieces, digestInput, List.flatten_cons, List.flatten_eq_flatMap, List.flatMap_assoc]
  simp

theorem pieces_inj {m m' : Bytes} {files files' : List RuleFile}
    (h : pieces m files = pieces m' files') : m = m' ∧ files = files' := by
  obtain ⟨hm, hfiles⟩ := List.cons.inj h
  refine ⟨hm, ?_⟩
  clear h hm
  induction files generalizing files' with
  | nil =>
    cases files' with
    | nil => rfl
    | cons => cases hfiles
  | cons f files ih =>
    cases files' with
    | nil => cases hfiles
    | cons =>
      obtain ⟨hname, htail⟩ := List.cons.inj hfiles
      obtain ⟨hcontent, hrest⟩ := List.cons.inj htail
      rw [RuleFile.ext (Go.utf8_injective hname) hcontent, ih hrest]

def lengths (manifestBytes : Bytes) (files : List RuleFile) : List ℕ :=
  (pieces manifestBytes files).map List.length

/-- Two packs that load and whose digests are taken of the same bytes have the same digest. They
are the same pack if and only if the bytes are cut at the same places in both. -/
theorem loadedPacks_agree_iff [Library] {decodeManifest : Bytes → Except Go.Error PackManifest}
    {decode : Decoder} {sha256 : Bytes → Bytes} {d d' : Directory} {p p' : Loaded} {m m' : Bytes}
    (hp : loadPack decodeManifest decode sha256 d = .ok p)
    (hp' : loadPack decodeManifest decode sha256 d' = .ok p')
    (hm : d.read packManifestName = some m) (hm' : d'.read packManifestName = some m')
    (hbytes : digestInput d m = digestInput d' m') :
    p.digest = p'.digest ∧
      ((m = m' ∧ ruleFiles d = ruleFiles d') ↔
        lengths m (ruleFiles d) = lengths m' (ruleFiles d')) := by
  refine ⟨?_, ?_, ?_⟩
  · obtain ⟨n, hn, hdigest⟩ := loadPack_ok decodeManifest decode sha256 hp
    obtain ⟨n', hn', hdigest'⟩ := loadPack_ok decodeManifest decode sha256 hp'
    rw [hm] at hn
    rw [hm'] at hn'
    cases hn
    cases hn'
    rw [hdigest, hdigest', packDigest, packDigest, hbytes]
  · rintro ⟨rfl, hfiles⟩
    rw [hfiles]
  · intro hlengths
    refine pieces_inj (List.eq_iff_flatten_eq.mpr ⟨?_, hlengths⟩)
    rw [flatten_pieces, flatten_pieces, hbytes]

/-! ## Two packs with the same bytes -/

def twoFiles (m a b : Bytes) : Directory :=
  ((Directory.empty.put packManifestName m).put "a.yaml" a).put "b.yaml" b

def oneFile (m a : Bytes) : Directory :=
  (Directory.empty.put packManifestName m).put "a.yaml" a

theorem ruleFiles_twoFiles (m a b : Bytes) :
    ruleFiles (twoFiles m a b) =
      [{ name := "a.yaml", content := a }, { name := "b.yaml", content := b }] := rfl

theorem ruleFiles_oneFile (m a : Bytes) :
    ruleFiles (oneFile m a) = [{ name := "a.yaml", content := a }] := rfl

/-- The name of the second file and what it holds can as well be the end of the first one. -/
theorem digestInput_oneFile (m a b : Bytes) :
    digestInput (oneFile m (a ++ (Go.utf8 "b.yaml" ++ b))) m = digestInput (twoFiles m a b) m := by
  simp [digestInput, ruleFiles_oneFile, ruleFiles_twoFiles]

def manifestText := Go.ascii "name: linux\nversion: 1.0.0\n"

def shellText :=
  Go.ascii "- " ++
    Go.ascii "id: R-1\n  severity: high\n  match: \x7bfield: event.type, op: exists\x7d\n#"

def minerText :=
  Go.ascii "[" ++
    Go.ascii "\x7bid: R-2, severity: high, match: \x7bfield: event.type, op: exists\x7d\x7d]"

def signedPack : Directory := twoFiles manifestText shellText minerText

/-- The same bytes in one rule file: what was the second file is a comment. -/
def tamperedPack : Directory :=
  oneFile manifestText (shellText ++ (Go.utf8 "b.yaml" ++ minerText))

theorem read_twoFiles (m a b : Bytes) :
    (twoFiles m a b).read packManifestName = some m := rfl

theorem read_oneFile (m a : Bytes) : (oneFile m a).read packManifestName = some m := rfl

theorem read_signedPack : signedPack.read packManifestName = some manifestText :=
  read_twoFiles _ _ _

theorem read_tamperedPack : tamperedPack.read packManifestName = some manifestText :=
  read_oneFile _ _

def sampleManifest (content : Bytes) : Except Go.Error PackManifest :=
  if content = manifestText then .ok { name := "linux", version := "1.0.0" }
  else .error (.errorf "did not find expected node content" [])

section
-- the library for concrete runs: no condition here compares numbers or texts
local instance : Library := .plain

def shellDoc : RuleDoc where
  id := "R-1"
  severity := "high"
  condition := some (.leaf "event.type" "exists" .null)

def minerDoc : RuleDoc where
  id := "R-2"
  severity := "high"
  condition := some (.leaf "event.type" "exists" .null)

def sampleDecoder : Decoder := fun content =>
  if content = minerText then .ok [minerDoc]
  else if content = shellText ∨ content = shellText ++ (Go.utf8 "b.yaml" ++ minerText) then
    .ok [shellDoc]
  else .error (.errorf "did not find expected node content" [])

theorem sampleDecoder_minerText : sampleDecoder minerText = .ok [minerDoc] := if_pos rfl

theorem sampleDecoder_of_shellText {content : Bytes}
    (h : content = shellText ∨ content = shellText ++ (Go.utf8 "b.yaml" ++ minerText)) :
    sampleDecoder content = .ok [shellDoc] := by
  have hdash : content[0]? = some 45 := by
    rcases h with rfl | rfl <;> rfl
  have hne : content ≠ minerText := by
    rintro rfl
    cases hdash
  rw [sampleDecoder, if_neg hne, if_pos h]

theorem loadDir_eq (decode : Decoder) (d : Directory) :
    loadDir decode d = loadFiles decode (ruleFiles d) := rfl

theorem exists_loadDir {decode : Decoder} {d : Directory} {ids : List String}
    (h : (loadFiles decode (ruleFiles d)).toOption.map (fun rules => rules.map Rule.id) =
      some ids) :
    ∃ rules, loadDir decode d = .ok rules ∧ rules.map Rule.id = ids := by
  rw [← loadDir_eq] at h
  cases hload : loadDir decode d with
  | error =>
    rw [hload] at h
    cases h
  | ok rules =>
    rw [hload] at h
    exact ⟨rules, rfl, Option.some.inj h⟩

theorem loadDir_signedPack :
    ∃ rules, loadDir sampleDecoder signedPack = .ok rules ∧
      rules.map Rule.id = ["R-1", "R-2"] := by
  refine exists_loadDir ?_
  simp only [signedPack, ruleFiles_twoFiles, loadFiles, Detect.addFiles, Detect.addFile, Detect.loadFile,
    sampleDecoder_minerText, sampleDecoder_of_shellText (.inl rfl)]
  rfl

theorem loadDir_tamperedPack :
    ∃ rules, loadDir sampleDecoder tamperedPack = .ok rules ∧
      rules.map Rule.id = ["R-1"] := by
  refine exists_loadDir ?_
  simp only [tamperedPack, ruleFiles_oneFile, loadFiles, Detect.addFiles, Detect.addFile,
    Detect.loadFile, sampleDecoder_of_shellText (.inr rfl)]
  rfl

theorem sampleManifest_manifestText :
    sampleManifest manifestText = .ok { name := "linux", version := "1.0.0" } := if_pos rfl

/-- A pack with a file beside it that is no part of it. -/
def documented (d : Directory) : Directory := d.put "README.md" (Go.ascii "Linux rules")

theorem ruleFiles_documented (m a b : Bytes) :
    ruleFiles (documented (twoFiles m a b)) = ruleFiles (twoFiles m a b) := rfl

theorem read_documented (m a b : Bytes) :
    (documented (twoFiles m a b)).read packManifestName = some m := rfl

theorem loadedPacks_agree_documented :
    ∃ p p', loadPack sampleManifest sampleDecoder id signedPack = .ok p ∧
      loadPack sampleManifest sampleDecoder id (documented signedPack) = .ok p' ∧
      p.digest = p'.digest ∧ ruleFiles signedPack = ruleFiles (documented signedPack) := by
  have hfiles : ruleFiles (documented signedPack) = ruleFiles signedPack :=
    ruleFiles_documented _ _ _
  have hm' : (documented signedPack).read packManifestName = some manifestText :=
    read_documented _ _ _
  obtain ⟨rules, hrules, -⟩ := loadDir_signedPack
  have hrules' : loadDir sampleDecoder (documented signedPack) = .ok rules := by
    rw [loadDir_eq, hfiles, ← loadDir_eq, hrules]
  have hp := loadPack_of_loadDir sampleManifest sampleDecoder id read_signedPack
    sampleManifest_manifestText (by decide) hrules
  have hp' := loadPack_of_loadDir sampleManifest sampleDecoder id hm'
    sampleManifest_manifestText (by decide) hrules'
  have hbytes : digestInput signedPack manifestText =
      digestInput (documented signedPack) manifestText := by
    rw [digestInput, digestInput, hfiles]
  obtain ⟨hdigest, hagree⟩ := loadedPacks_agree_iff hp hp' read_signedPack hm' hbytes
  exact ⟨_, _, hp, hp', hdigest, (hagree.mpr (by rw [hfiles])).2⟩

/-- Two packs load with the same digest, although one of them has a rule less. So whatever SHA-256
is, and whatever the scheme is that accepts the author's signatures, the signature of the first pack
verifies the second one. -/
theorem dropped_rule_verifies :
    digestInput tamperedPack manifestText = digestInput signedPack manifestText ∧
    ∀ sha256 : Bytes → Bytes,
      ∃ p p', loadPack sampleManifest sampleDecoder sha256 signedPack = .ok p ∧
        loadPack sampleManifest sampleDecoder sha256 tamperedPack = .ok p' ∧
        p.rules.map Rule.id = ["R-1", "R-2"] ∧ p'.rules.map Rule.id = ["R-1"] ∧
        ∀ (scheme : Ed25519) (privateKey publicKey : Bytes),
          (∀ message, scheme.verify publicKey message (scheme.sign privateKey message) = true) →
          p'.verify scheme (p.sign scheme privateKey) publicKey = .ok () := by
  have hinput : digestInput tamperedPack manifestText = digestInput signedPack manifestText :=
    digestInput_oneFile _ _ _
  refine ⟨hinput, fun sha256 => ?_⟩
  obtain ⟨rules, hrules, hids⟩ := loadDir_signedPack
  obtain ⟨rules', hrules', hids'⟩ := loadDir_tamperedPack
  have hp := loadPack_of_loadDir sampleManifest sampleDecoder sha256 read_signedPack
    sampleManifest_manifestText (by decide) hrules
  have hp' := loadPack_of_loadDir sampleManifest sampleDecoder sha256 read_tamperedPack
    sampleManifest_manifestText (by decide) hrules'
  refine ⟨_, _, hp, hp', hids, hids', fun scheme privateKey publicKey hscheme => ?_⟩
  have hsame : packDigest sha256 tamperedPack manifestText =
      packDigest sha256 signedPack manifestText :=
    congrArg (fun bytes => Go.hexString (sha256 bytes)) hinput
  simp only [Loaded.verify, Loaded.sign, hsame, hscheme, not_true_eq_false, if_false]

end

end ArgusEdr.Pack
