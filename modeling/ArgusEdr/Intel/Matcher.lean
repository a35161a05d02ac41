import ArgusEdr.Detect.Engine
import ArgusEdr.Go.Address
import ArgusEdr.Lib.Fallible

/-!
# Threat-intelligence feeds (`internal/intel`)

A feed is a list of lines, each an indicator whose type is inferred from its text. `load` indexes
them, and `Matcher.match` looks the addresses, the domain and the hash of an event up.
What the index holds is said by `mem_ips_iff` to `mem_cidrs_iff`. An address is listed as a text, of
which it has several.
-/

namespace ArgusEdr.Intel

open List

open Go.Unicode (ascii)
open Go (parseIP toLower)
open Model

/-! ## Feeds -/

def sha256HexLen : ℕ := 64

/-- A feed file: why it could not be opened, or the lines read from it and, if the reading
stopped short, why. -/
structure Feed where
  path : String
  content : Except Go.Error (List String × Option Go.Error)

/-- `Matcher`: exact lookups, and the ranges in the order of the lines. -/
structure Matcher where
  ips : Std.ExtTreeMap String String := {}
  cidrs : List (Go.IPNet × String) := []
  domains : Std.ExtTreeMap String String := {}
  hashes : Std.ExtTreeMap String String := {}

def isSHA256 (value : String) : Bool :=
  value.utf8ByteSize == sha256HexLen && value.toList.all Go.isHex

variable (u : Go.Unicode)

/-- Indexes one indicator. What looks like a range and is none is dropped. -/
def Matcher.add (m : Matcher) (indicator source : String) : Matcher :=
  if Go.contains indicator "/" then
    match Go.parseCIDR indicator with
    | some network => { m with cidrs := m.cidrs ++ [(network, source)] }
    | none => m
  else if (parseIP indicator).isSome then { m with ips := m.ips.insert indicator source }
  else if isSHA256 indicator then
    { m with hashes := m.hashes.insert (toLower u indicator) source }
  else { m with domains := m.domains.insert (toLower u indicator) source }

def indicatorOf (line : String) : String :=
  Go.trimSpace (String.ofList (line.toList.takeWhile (· ≠ '#')))

def loadFile (m : Matcher) (feed : Feed) : Except Go.Error Matcher :=
  match feed.content with
  | .error err => .error (.wrapf "open intel feed: %w" [] err)
  | .ok (lines, err) =>
    let source := Go.base feed.path
    let m := lines.foldl (fun m line =>
      if indicatorOf line ≠ "" then m.add u (indicatorOf line) source else m) m
    match err with
    | some err => .error (.wrapf "read intel feed %s: %w" [source] err)
    | none => .ok m

def load (feeds : List Feed) : Except Go.Error Matcher := feeds.foldlM (loadFile u) {}

/-! ## Matching -/

structure IntelHit where
  indicator : String
  type : Detect.IndicatorType
  field : String
  source : String
deriving Repr, DecidableEq

def Matcher.matchIP (m : Matcher) (ip : String) : Option String :=
  match m.ips[ip]? with
  | some source => some source
  | none =>
    match parseIP ip with
    | none => none
    | some parsed => (m.cidrs.find? fun entry => entry.1.contains parsed).map (·.2)

/-- The source of an address, unless the field is empty. -/
def Matcher.findIP (m : Matcher) (ip : String) : Option String :=
  if ip = "" then none else m.matchIP ip

/-- The source of a text that is looked up in lower case, unless the field is empty. -/
def findLower (table : Std.ExtTreeMap String String) (text : String) : Option String :=
  if toLower u text = "" then none else table[toLower u text]?

structure Probe where
  field : String
  type : Detect.IndicatorType
  text : String
  found : Option String

def Matcher.probes (m : Matcher) (event : Event) : List Probe :=
  [⟨"destination.ip", .ip, event.network.dstIP, m.findIP event.network.dstIP⟩,
    ⟨"source.ip", .ip, event.network.srcIP, m.findIP event.network.srcIP⟩,
    ⟨"network.domain", .domain, event.network.domain, findLower u m.domains event.network.domain⟩,
    ⟨"process.sha256", .hash, event.process.sha256, findLower u m.hashes event.process.sha256⟩]

def Matcher.match (m : Matcher) (event : Event) : List IntelHit :=
  (m.probes u event).filterMap fun p =>
    p.found.map fun source => { indicator := p.text, type := p.type, field := p.field, source }

/-! ## What the feeds say -/

/-- The types of a line. -/
inductive Kind where
  | cidr | ip | hash | domain
deriving Repr, DecidableEq

def classify (indicator : String) : Kind :=
  if Go.contains indicator "/" then .cidr
  else if (parseIP indicator).isSome then .ip
  else if isSHA256 indicator then .hash
  else .domain

def Feed.entries (feed : Feed) : List (String × String) :=
  match feed.content with
  | .error _ => []
  | .ok (lines, _) =>
    ((lines.map indicatorOf).filter (· ≠ "")).map fun text => (text, Go.base feed.path)

def indicators (feeds : List Feed) : List String := (feeds.flatMap Feed.entries).map Prod.fst

/-- Some line lists the address that `ip` denotes, in whatever spelling. -/
def Listed (texts : List String) (ip : String) : Prop :=
  ∃ a, parseIP ip = some a ∧ ∃ t ∈ texts, classify t = .ip ∧ parseIP t = some a

/-- Some line lists the address in this very spelling. -/
def ListedAs (texts : List String) (ip : String) : Prop := ip ∈ texts ∧ classify ip = .ip

/-- Some line is a range that contains the address that `ip` denotes. -/
def Ranged (texts : List String) (ip : String) : Prop :=
  ∃ a, parseIP ip = some a ∧ ∃ t ∈ texts, classify t = .cidr ∧
    ∃ range, Go.splitCIDR t = some range ∧ Go.Covers a range

def HitOn (m : Matcher) (event : Event) (field : String) : Prop :=
  ∃ hit ∈ m.match u event, hit.field = field

/-! ## What the index holds -/

def rangeOf (e : String × String) : Option (Go.IPNet × String) :=
  if classify e.1 = .cidr then (Go.parseCIDR e.1).map fun network => (network, e.2) else none

theorem add_eq (m : Matcher) (e : String × String) :
    m.add u e.1 e.2 =
      { cidrs := m.cidrs ++ (rangeOf e).toList
        ips := if classify e.1 = .ip then m.ips.insert e.1 e.2 else m.ips
        hashes :=
          if classify e.1 = .hash then m.hashes.insert (toLower u e.1) e.2 else m.hashes
        domains :=
          if classify e.1 = .domain then m.domains.insert (toLower u e.1) e.2
          else m.domains } := by
  unfold Matcher.add rangeOf classify
  split_ifs <;> simp_all
  cases Go.parseCIDR e.1 <;> simp

/-- A table holds the indicators of its type, under their keys. -/
def Indexes (table : Matcher → Std.ExtTreeMap String String) (k : Kind) (key : String → String) :
    Prop :=
  table {} = {} ∧ ∀ (m : Matcher) (e : String × String), table (m.add u e.1 e.2) =
    if classify e.1 = k then (table m).insert (key e.1) e.2 else table m

theorem indexes_ips : Indexes u Matcher.ips .ip id := ⟨rfl, fun m e => by rw [add_eq]; rfl⟩

theorem indexes_hashes : Indexes u Matcher.hashes .hash (toLower u) :=
  ⟨rfl, fun m e => by rw [add_eq]⟩

theorem indexes_domains : Indexes u Matcher.domains .domain (toLower u) :=
  ⟨rfl, fun m e => by rw [add_eq]⟩

theorem Indexes.mem_foldl {table : Matcher → Std.ExtTreeMap String String} {k : Kind}
    {key : String → String} (h : Indexes u table k key) (m : Matcher)
    (entries : List (String × String)) (x : String) :
    x ∈ table (entries.foldl (fun m e => m.add u e.1 e.2) m) ↔
      x ∈ table m ∨ ∃ e ∈ entries, classify e.1 = k ∧ key e.1 = x := by
  induction entries generalizing m with
  | nil => simp
  | cons e entries ih =>
    rw [foldl_cons, ih, h.2]
    by_cases hk : classify e.1 = k
    · simp [hk, or_assoc, or_left_comm]
    · simp [hk]

theorem cidrs_foldl (m : Matcher) (entries : List (String × String)) :
    (entries.foldl (fun m e => m.add u e.1 e.2) m).cidrs = m.cidrs ++ entries.filterMap rangeOf := by
  induction entries generalizing m with
  | nil => simp
  | cons e entries ih =>
    rw [foldl_cons, ih, add_eq, append_assoc]
    cases he : rangeOf e <;> simp [he]

variable {m : Matcher} {feeds : List Feed} {texts : List String} {ip : String}

theorem loadFile_eq_ok {m' : Matcher} {feed : Feed} (h : loadFile u m feed = .ok m') :
    m' = feed.entries.foldl (fun m e => m.add u e.1 e.2) m := by
  unfold loadFile at h
  unfold Feed.entries
  split at h
  · cases h
  · next lines err hcontent =>
    cases err with
    | some => cases h
    | none =>
      cases h
      simp only [foldl_map, foldl_filter, decide_eq_true_eq]

theorem load_eq_ok (h : load u feeds = .ok m) :
    m = (feeds.flatMap Feed.entries).foldl (fun m e => m.add u e.1 e.2) {} := by
  unfold load at h
  generalize ({} : Matcher) = start at h ⊢
  induction feeds generalizing start with
  | nil =>
    cases h
    rfl
  | cons feed feeds ih =>
    rw [foldlM_cons] at h
    obtain ⟨next, hnext, hrest⟩ := Fallible.bind_eq_ok.mp h
    rw [flatMap_cons, foldl_append, ← loadFile_eq_ok u hnext]
    exact ih next hrest

theorem ne_empty_of_mem_indicators {t : String} (h : t ∈ indicators feeds) : t ≠ "" := by
  simp only [indicators, mem_map, mem_flatMap] at h
  obtain ⟨e, ⟨feed, -, he⟩, rfl⟩ := h
  unfold Feed.entries at he
  split at he
  · cases he
  · simp only [mem_map, mem_filter, decide_eq_true_eq] at he
    obtain ⟨t, ⟨-, hne⟩, rfl⟩ := he
    exact hne

theorem toLower_eq_empty {s : String} (h : toLower u s = "") : s = "" := by
  simpa [toLower] using h

section
variable {u} {feeds : List Feed} {m : Matcher} (h : load u feeds = .ok m)
include h

variable {table : Matcher → Std.ExtTreeMap String String}

theorem mem_table_iff {k : Kind} {key : String → String} (hindex : Indexes u table k key)
    (x : String) : x ∈ table m ↔ ∃ t ∈ indicators feeds, classify t = k ∧ key t = x := by
  rw [load_eq_ok u h, hindex.mem_foldl, hindex.1]
  simp [indicators]

theorem listedAs_iff (ip : String) : ip ∈ m.ips ↔ ListedAs (indicators feeds) ip := by
  rw [mem_table_iff h (indexes_ips u) ip]
  constructor
  · rintro ⟨t, ht, hk, rfl⟩
    exact ⟨ht, hk⟩
  · rintro ⟨ht, hk⟩
    exact ⟨ip, ht, hk, rfl⟩

theorem exists_range_iff (a : Go.IP) :
    (∃ entry ∈ m.cidrs, entry.1.contains a = true) ↔ ∃ t ∈ indicators feeds, classify t = .cidr ∧
      ∃ range, Go.splitCIDR t = some range ∧ Go.Covers a range := by
  simp only [← Go.contains_parseCIDR]
  rw [load_eq_ok u h, cidrs_foldl]
  simp only [nil_append, mem_filterMap, rangeOf, indicators, mem_map]
  constructor
  · rintro ⟨entry, ⟨e, he, hrange⟩, hcontains⟩
    split at hrange
    · next hk =>
      obtain ⟨network, hparse, rfl⟩ := Option.map_eq_some_iff.mp hrange
      exact ⟨e.1, ⟨e, he, rfl⟩, hk, network, hparse, hcontains⟩
    · cases hrange
  · rintro ⟨_, ⟨e, he, rfl⟩, hk, network, hparse, hcontains⟩
    exact ⟨(network, e.2), ⟨e, he, by simp [hk, hparse]⟩, hcontains⟩

/-! ## What a probe finds -/

theorem isSome_matchIP_iff (ip : String) :
    (m.matchIP ip).isSome ↔ ListedAs (indicators feeds) ip ∨ Ranged (indicators feeds) ip := by
  rw [← listedAs_iff h, ← Std.ExtTreeMap.isSome_getElem?_iff_mem]
  unfold Matcher.matchIP
  cases m.ips[ip]? with
  | some => simp
  | none =>
    cases hip : parseIP ip with
    | none => simp [Ranged, hip]
    | some a =>
      simp only [Option.isSome_map, find?_isSome, Option.isSome_none, Bool.false_eq_true,
        false_or, Ranged, hip, Option.some.injEq, exists_eq_left']
      exact exists_range_iff h a

theorem isSome_findIP_iff (ip : String) :
    (m.findIP ip).isSome ↔ ListedAs (indicators feeds) ip ∨ Ranged (indicators feeds) ip := by
  unfold Matcher.findIP
  split_ifs with hempty
  · subst hempty
    have hnone : parseIP "" = none := by decide
    simp only [Option.isSome_none, Bool.false_eq_true, Ranged, hnone, reduceCtorEq, false_and,
      exists_false, or_false, false_iff]
    exact fun hlisted => ne_empty_of_mem_indicators hlisted.1 rfl
  · exact isSome_matchIP_iff h ip

theorem isSome_findLower_iff {k : Kind} (hindex : Indexes u table k (toLower u))
    (text : String) :
    (findLower u (table m) text).isSome ↔
      ∃ t ∈ indicators feeds, classify t = k ∧ toLower u t = toLower u text := by
  rw [← mem_table_iff h hindex, findLower]
  split_ifs with hempty
  · -- the empty text is under no key, since no indicator is empty
    rw [mem_table_iff h hindex, hempty]
    simp only [Option.isSome_none, Bool.false_eq_true, false_iff, not_exists, not_and]
    intro t ht _ hlower
    exact ne_empty_of_mem_indicators ht (toLower_eq_empty u hlower)
  · exact Std.ExtTreeMap.isSome_getElem?_iff_mem

end

/-! ## Hits -/

theorem hitOn_iff (m : Matcher) (event : Event) (field : String) :
    HitOn u m event field ↔ ∃ p ∈ m.probes u event, p.field = field ∧ p.found.isSome := by
  simp only [HitOn, Matcher.match, mem_filterMap, Option.map_eq_some_iff,
    Option.isSome_iff_exists]
  constructor
  · rintro ⟨_, ⟨p, hp, source, hfound, rfl⟩, hfield⟩
    exact ⟨p, hp, hfield, source, hfound⟩
  · rintro ⟨p, hp, hfield, source, hfound⟩
    exact ⟨_, ⟨p, hp, source, hfound, rfl⟩, hfield⟩

/-- The feeds say that an address is malicious. -/
def Flagged (texts : List String) (ip : String) : Prop := Listed texts ip ∨ Ranged texts ip

/-- If a line lists the address, then some line does so in this spelling, or a range has it. -/
def SpelledAlike (texts : List String) (ip : String) : Prop :=
  Listed texts ip → ListedAs texts ip ∨ Ranged texts ip

theorem ListedAs.listed (h : ListedAs texts ip) : Listed texts ip := by
  obtain ⟨hmem, hk⟩ := h
  have hip : (parseIP ip).isSome := by
    unfold classify at hk
    split_ifs at hk with _ hip
    exact hip
  obtain ⟨a, ha⟩ := Option.isSome_iff_exists.mp hip
  exact ⟨a, ha, ip, hmem, hk, ha⟩

/-- What the matcher finds is what the feeds say exactly if the address is spelled alike. -/
theorem found_iff_flagged_iff (texts : List String) (ip : String) :
    ((ListedAs texts ip ∨ Ranged texts ip) ↔ Flagged texts ip) ↔ SpelledAlike texts ip := by
  have hlisted : ListedAs texts ip → Listed texts ip := ListedAs.listed
  unfold Flagged SpelledAlike
  tauto

theorem spelledAlike_of_dotted (htexts : ∀ t ∈ texts, classify t = .ip → ':' ∉ t.toList)
    (hip : ':' ∉ ip.toList) : SpelledAlike texts ip := by
  rintro ⟨a, ha, t, ht, hk, hta⟩
  have hsame : ip = t := Go.parseIP_injective_of_dotted hip (htexts t ht hk) ha hta
  subst hsame
  exact Or.inl ⟨ht, hk⟩

/-- For all feeds that load and every event: an address field has a hit exactly if the feeds flag
its address, provided that it is spelled alike, and only then; the domain and the hash have one
exactly if a line of their type is the same text up to the case of letters. If neither the lines nor
the field has a colon, the field is spelled alike. -/
theorem match_hits {feeds : List Feed} {m : Matcher} (h : load u feeds = .ok m) (event : Event) :
    let texts := indicators feeds
    ((HitOn u m event "destination.ip" ↔ Flagged texts event.network.dstIP) ↔
      SpelledAlike texts event.network.dstIP) ∧
    ((HitOn u m event "source.ip" ↔ Flagged texts event.network.srcIP) ↔
      SpelledAlike texts event.network.srcIP) ∧
    (HitOn u m event "network.domain" ↔ ∃ t ∈ texts, classify t = .domain ∧
      toLower u t = toLower u event.network.domain) ∧
    (HitOn u m event "process.sha256" ↔ ∃ t ∈ texts, classify t = .hash ∧
      toLower u t = toLower u event.process.sha256) ∧
    ((∀ t ∈ texts, classify t = .ip → ':' ∉ t.toList) → ∀ ip, ':' ∉ ip.toList →
      SpelledAlike texts ip) := by
  intro texts
  have hdomain := isSome_findLower_iff h (indexes_domains u) event.network.domain
  have hhash := isSome_findLower_iff h (indexes_hashes u) event.process.sha256
  refine ⟨?_, ?_, ?_, ?_, fun htexts ip => spelledAlike_of_dotted htexts⟩
  · rw [← found_iff_flagged_iff, ← isSome_findIP_iff h, hitOn_iff]
    simp [Matcher.probes]
  · rw [← found_iff_flagged_iff, ← isSome_findIP_iff h, hitOn_iff]
    simp [Matcher.probes]
  · rw [← hdomain, hitOn_iff]
    simp [Matcher.probes]
  · rw [← hhash, hitOn_iff]
    simp [Matcher.probes]

/-- A feed of an address and a domain, and an event with both in other letters. -/
def sampleFeed : List Feed :=
  [⟨"/etc/argus/iocs.txt", .ok (["2001:DB8::1  # a C2 address", "", "C2.malware.example"], none)⟩]

def sampleEvent : Event := { network := { dstIP := "2001:db8::1", domain := "c2.Malware.example" } }

/-- The domain has its hit. -/
theorem match_hits_sample :
    ∃ m, load ascii sampleFeed = .ok m ∧
      HitOn ascii m sampleEvent "network.domain" := by
  have hload : load ascii sampleFeed = .ok _ := rfl
  refine ⟨_, hload, (match_hits ascii hload sampleEvent).2.2.1.mpr ?_⟩
  exact ⟨"C2.malware.example", by decide +kernel, by decide +kernel, by decide +kernel⟩

/-- The feed flags the address of the event, and the event has no hit on it. -/
theorem match_misses_spelling :
    ∃ m, load ascii sampleFeed = .ok m ∧
      Flagged (indicators sampleFeed) sampleEvent.network.dstIP ∧
      ¬ HitOn ascii m sampleEvent "destination.ip" := by
  have hload : load ascii sampleFeed = .ok _ := rfl
  refine ⟨_, hload, Or.inl ?_, ?_⟩
  · exact ⟨0x20010db8000000000000000000000001#128, by decide +kernel, "2001:DB8::1",
      by decide +kernel, by decide +kernel, by decide +kernel⟩
  · rw [hitOn_iff]
    decide +kernel

end ArgusEdr.Intel
