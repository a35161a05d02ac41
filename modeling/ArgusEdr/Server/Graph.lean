import ArgusEdr.Go.Strconv
import ArgusEdr.Go.Strings
import ArgusEdr.Lib.Framing
import ArgusEdr.Lib.Ranking
import ArgusEdr.Model.Event

/-!
# The attack graph of a host (`server/investigate/graph.go`)

`build` makes a graph of processes, files and network endpoints from the events of a host, and marks
the processes that alerts were raised on. `nodeIDs` and `impliedEdges` say what an event is about, and
`Shows` that a builder holds what a list of events is about. Edges are kept under a text made of their
ends, which tells them apart whatever the texts of the ends are (`Edge.key_inj`).
-/

namespace ArgusEdr.Investigate

open Model (Event)
open Std (ExtTreeMap)
open List

def kindProcess := "process"
def kindFile := "file"
def kindNetwork := "network"

structure Node where
  id : String
  kind : String
  label : String
  pid : UInt32 := 0
  /-- the command line, the file path or the endpoint -/
  detail : String := ""
  techniques : List String := []
  severity : String := ""
  alerting : Bool := false
deriving DecidableEq

structure Edge where
  source : String
  target : String
  kind : String
deriving DecidableEq

structure Graph where
  host : String
  nodes : List Node
  edges : List Edge
deriving DecidableEq

structure Annotation where
  pid : UInt32
  techniqueID : String := ""
  severity : String := ""

def fileEdgeKinds : List (String × String) :=
  [("open", "opened"), ("unlink", "deleted"), ("rename", "renamed"), ("chmod", "chmod")]

def edgeKind (action : String) (table : List (String × String)) (fallback : String) : String :=
  (table.lookup action).getD fallback

/-- What follows the last slash, unless that is nothing. -/
def baseName (path : String) : String :=
  let name := (path.toList.reverse.takeWhile (· ≠ '/')).reverse
  if name = [] then path else String.ofList name

def pidLabel (pid : UInt32) : String := "pid " ++ Go.formatUint pid.toNat

def processLabel (name executable : String) (pid : UInt32) : String :=
  if name ≠ "" then name
  else if executable ≠ "" then baseName executable
  else pidLabel pid

def endpoint (ip : String) (port : UInt16) : String :=
  if port = 0 then ip else ip ++ ":" ++ Go.formatUint port.toNat

def severityOrder : List (String × ℕ) :=
  [("info", 1), ("low", 2), ("medium", 3), ("high", 4), ("critical", 5)]

def severityRank (u : Go.Unicode) (severity : String) : ℕ :=
  (severityOrder.lookup (Go.toLower u severity)).getD 0

def processID (pid : UInt32) : String := "proc:" ++ Go.formatUint pid.toNat
def fileID (path : String) : String := "file:" ++ path
def networkID (endpoint : String) : String := "net:" ++ endpoint

/-- The key of an edge in the map of edges. -/
def Edge.key (e : Edge) : String := e.source ++ "|" ++ e.target ++ "|" ++ e.kind

structure Builder where
  nodes : ExtTreeMap String Node := ∅
  edges : ExtTreeMap String Edge := ∅
  /-- node ids in first-seen order -/
  order : List String := []

namespace Builder

def ensure (b : Builder) (id kind label : String) : Builder :=
  if id ∈ b.nodes then b
  else { b with nodes := b.nodes.insert id { id, kind, label }, order := b.order ++ [id] }

/-- The node, found or made, is changed in place. -/
def touch (b : Builder) (id kind label : String) (change : Node → Node) : Builder :=
  let b := b.ensure id kind label
  { b with nodes := b.nodes.modify id change }

def process (b : Builder) (pid : UInt32) (name executable commandLine : String) : Builder :=
  b.touch (processID pid) kindProcess (processLabel name executable pid) fun node =>
    { node with
      pid
      label := if node.label = "" ∨ node.label = pidLabel pid then processLabel name executable pid
        else node.label
      detail := if commandLine ≠ "" then commandLine else node.detail }

def file (b : Builder) (path : String) : Builder :=
  b.touch (fileID path) kindFile (baseName path) fun node => { node with detail := path }

def network (b : Builder) (endpoint : String) : Builder :=
  b.touch (networkID endpoint) kindNetwork endpoint fun node => { node with detail := endpoint }

def link (b : Builder) (e : Edge) : Builder :=
  if e.key ∈ b.edges then b else { b with edges := b.edges.insert e.key e }

def linkParent (b : Builder) (event : Event) (child : String) : Builder :=
  if event.process.ppid = 0 ∨ event.action ≠ "exec" ∧ event.action ≠ "fork" then b
  else
    (b.process event.process.ppid event.process.parentName event.process.parentExecutable "").link
      ⟨processID event.process.ppid, child, "spawned"⟩

def addEvent (b : Builder) (event : Event) : Builder :=
  let actor := processID event.process.pid
  let b := b.process event.process.pid event.process.name event.process.executable
    event.process.commandLine
  let b := b.linkParent event actor
  if event.file.path ≠ "" then
    (b.file event.file.path).link
      ⟨actor, fileID event.file.path, edgeKind event.action fileEdgeKinds "accessed"⟩
  else if event.action = "dns" ∧ event.network.domain ≠ "" then
    (b.network event.network.domain).link ⟨actor, networkID event.network.domain, "resolved"⟩
  else if event.network.dstIP ≠ "" then
    let target := endpoint event.network.dstIP event.network.dstPort
    (b.network target).link ⟨actor, networkID target, "connected"⟩
  else b

end Builder

def addTechnique (techniques : List String) (technique : String) : List String :=
  if technique ≠ "" ∧ technique ∉ techniques then
    (techniques ++ [technique]).insertionSort (· ≤ ·)
  else techniques

def raiseSeverity (u : Go.Unicode) (severity new : String) : String :=
  if severityRank u severity < severityRank u new then new else severity

/-- What an annotation does to the node of its process. -/
def mark (u : Go.Unicode) (node : Node) (ann : Annotation) : Node :=
  { node with
    alerting := true
    techniques := addTechnique node.techniques ann.techniqueID
    severity := raiseSeverity u node.severity ann.severity }

/-- An annotation of a process without a node changes nothing. -/
def Builder.annotate (u : Go.Unicode) (b : Builder) (ann : Annotation) : Builder :=
  { b with nodes := b.nodes.modify (processID ann.pid) fun node => mark u node ann }

/-- Edges are sorted by source, then target, then kind. -/
def Edge.place (e : Edge) : String ×ₗ String ×ₗ String := toLex (e.source, toLex (e.target, e.kind))

/-- `finish`, for one order in which the map yields the edges. -/
def Builder.finish (b : Builder) (host : String) : Graph where
  host := host
  nodes := (b.order.filterMap (b.nodes[·]?)).insertionSort fun a b => a.id ≤ b.id
  edges := (b.edges.toList.map Prod.snd).insertionSort fun a b => a.place ≤ b.place

def build (u : Go.Unicode) (host : String) (events : List Event) (annotations : List Annotation) :
    Graph :=
  (annotations.foldl (Builder.annotate u) (events.foldl Builder.addEvent {})).finish host

/-! ## What the events imply -/

/-- The parent an event names. -/
def parents (e : Event) : List UInt32 :=
  if e.process.ppid = 0 ∨ e.action ≠ "exec" ∧ e.action ≠ "fork" then [] else [e.process.ppid]

/-- The file or endpoint an event is about, and what happened to it. -/
def objects (e : Event) : List (String × String) :=
  if e.file.path ≠ "" then [(fileID e.file.path, edgeKind e.action fileEdgeKinds "accessed")]
  else if e.action = "dns" ∧ e.network.domain ≠ "" then [(networkID e.network.domain, "resolved")]
  else if e.network.dstIP ≠ "" then
    [(networkID (endpoint e.network.dstIP e.network.dstPort), "connected")]
  else []

def nodeIDs (e : Event) : List String :=
  processID e.process.pid :: (parents e).map processID ++ (objects e).map Prod.fst

def impliedEdges (e : Event) : List Edge :=
  (parents e).map (fun ppid => ⟨processID ppid, processID e.process.pid, "spawned"⟩) ++
    (objects e).map fun o => ⟨processID e.process.pid, o.1, o.2⟩

/-- A node under a key, before the annotations. -/
structure Node.Fresh (id : String) (node : Node) : Prop where
  id_eq : node.id = id
  process : node.kind = kindProcess → id = processID node.pid
  techniques : node.techniques = []
  severity : node.severity = ""

/-- The builder holds nodes with the ids, and the edges. -/
structure Shows (b : Builder) (ids : List String) (edges : List Edge) : Prop where
  fresh : ∀ id (node : Node), b.nodes[id]? = some node → node.Fresh id
  mem_nodes : ∀ id, id ∈ b.nodes ↔ id ∈ ids
  mem_order : ∀ id, id ∈ b.order ↔ id ∈ ids
  order_nodup : b.order.Nodup
  edges : ∀ key, b.edges[key]? = edges.find? (·.key = key)

section
variable {b : Builder} {id kind label : String} {change : Node → Node}

theorem getElem?_touch (x : String) :
    (b.touch id kind label change).nodes[x]? =
      if id = x then some (change (b.nodes[x]?.getD { id, kind, label })) else b.nodes[x]? := by
  simp only [Builder.touch, Builder.ensure]
  split_ifs with hmem hid hid
  · subst hid
    obtain ⟨node, hnode⟩ := Option.isSome_iff_exists.mp (ExtTreeMap.mem_iff_isSome_getElem?.mp hmem)
    simp [hnode]
  · simp [ExtTreeMap.getElem?_modify, hid]
  · subst hid
    simp [hmem]
  · simp [ExtTreeMap.getElem?_modify, ExtTreeMap.getElem?_insert, hid]

variable {ids : List String} {edges : List Edge}

namespace Shows

theorem touch (h : Shows b ids edges) (hnew : (change { id, kind, label }).Fresh id)
    (hold : ∀ node : Node, node.Fresh id → (change node).Fresh id) :
    Shows (b.touch id kind label change) (ids ++ [id]) edges where
  fresh x node hx := by
    rw [getElem?_touch] at hx
    split_ifs at hx with hid
    · subst hid
      cases hx
      cases hnode : b.nodes[id]? with
      | none => exact hnew
      | some node => exact hold node (h.fresh id node hnode)
    · exact h.fresh x node hx
  mem_nodes x := by
    rw [ExtTreeMap.mem_iff_isSome_getElem?, getElem?_touch, mem_append, ← h.mem_nodes,
      ExtTreeMap.mem_iff_isSome_getElem?]
    split_ifs with hid
    · simp [hid]
    · simp [Ne.symm hid]
  mem_order x := by
    rw [mem_append, ← h.mem_order]
    simp only [Builder.touch, Builder.ensure]
    split_ifs with hmem
    · -- the id is there already
      have hid := (h.mem_order id).mpr ((h.mem_nodes id).mp hmem)
      simp only [mem_singleton]
      exact (or_iff_left_of_imp fun hx => hx ▸ hid).symm
    · exact mem_append
  order_nodup := by
    simp only [Builder.touch, Builder.ensure]
    split_ifs with hmem
    · exact h.order_nodup
    · rw [h.mem_nodes, ← h.mem_order] at hmem
      show (b.order ++ [id]).Nodup
      rw [← concat_eq_append]
      exact h.order_nodup.concat hmem
  edges key := by
    rw [← h.edges]
    simp only [Builder.touch, Builder.ensure]
    split_ifs <;> rfl

theorem process (h : Shows b ids edges) (pid : UInt32) (name executable commandLine : String) :
    Shows (b.process pid name executable commandLine) (ids ++ [processID pid]) edges :=
  h.touch ⟨rfl, fun _ => rfl, rfl, rfl⟩ fun _ hnode =>
    ⟨hnode.id_eq, fun _ => rfl, hnode.techniques, hnode.severity⟩

/-- Files and endpoints are no processes, and only their detail is set. -/
theorem object (h : Shows b ids edges) (hkind : kind ≠ kindProcess) (detail : String) :
    Shows (b.touch id kind label fun node => { node with detail }) (ids ++ [id]) edges :=
  h.touch ⟨rfl, fun heq => absurd heq hkind, rfl, rfl⟩ fun _ hnode =>
    ⟨hnode.id_eq, hnode.process, hnode.techniques, hnode.severity⟩

theorem link (h : Shows b ids edges) (e : Edge) : Shows (b.link e) ids (edges ++ [e]) := by
  have hmem : e.key ∈ b.edges ↔ (edges.find? (·.key = e.key)).isSome := by
    rw [ExtTreeMap.mem_iff_isSome_getElem?, h.edges]
  unfold Builder.link
  split_ifs with hkey
  · refine { h with edges := fun key => ?_ }
    rw [h.edges, find?_append]
    by_cases heq : e.key = key
    · subst heq
      exact (Option.or_of_isSome (hmem.mp hkey)).symm
    · simp [heq]
  · refine { h with edges := fun key => ?_ }
    rw [ExtTreeMap.getElem?_insert, h.edges, find?_append]
    by_cases heq : e.key = key
    · subst heq
      rw [hmem, Option.not_isSome_iff_eq_none] at hkey
      simp [hkey]
    · simp [heq]

theorem addEvent (h : Shows b ids edges) (e : Event) :
    Shows (b.addEvent e) (ids ++ nodeIDs e) (edges ++ impliedEdges e) := by
  have hfile : kindFile ≠ kindProcess := by decide
  have hnetwork : kindNetwork ≠ kindProcess := by decide
  have hparent : ∀ {b ids}, Shows b ids edges → Shows (b.linkParent e (processID e.process.pid))
      (ids ++ (parents e).map processID)
      (edges ++ (parents e).map fun ppid => ⟨processID ppid, processID e.process.pid, "spawned"⟩) := by
    intro b ids hb
    unfold Builder.linkParent parents
    split_ifs
    · simpa using hb
    · exact (hb.process _ _ _ _).link _
  have hactor := hparent (h.process e.process.pid e.process.name e.process.executable
    e.process.commandLine)
  simp only [Builder.addEvent, nodeIDs, impliedEdges, objects, ← append_assoc]
  rw [append_cons]
  split_ifs
  · exact (hactor.object hfile _).link _
  · exact (hactor.object hnetwork _).link _
  · exact (hactor.object hnetwork _).link _
  · simpa using hactor

end Shows

end

theorem shows_events (events : List Event) :
    Shows (events.foldl Builder.addEvent {}) (events.flatMap nodeIDs)
      (events.flatMap impliedEdges) := by
  induction events using List.reverseRecOn with
  | nil => exact ⟨by simp, by simp, by simp, nodup_nil, fun _ => rfl⟩
  | append_singleton events e ih => simpa using ih.addEvent e

/-! ## The keys of edges -/

/-- An edge from a process, of a kind that has no separator in it. -/
def Edge.FromProcess (e : Edge) : Prop := (∃ pid, e.source = processID pid) ∧ '|' ∉ e.kind.toList

theorem notMem_processID (pid : UInt32) : '|' ∉ (processID pid).toList := by
  intro hmem
  simp only [processID, String.toList_append, mem_append, Go.toList_formatUint] at hmem
  rcases hmem with hmem | hmem
  · exact absurd hmem (by decide)
  · exact absurd ((Go.digits_toDigits _).2.1 _ hmem) (by decide)

theorem Edge.key_inj {e e' : Edge} (he : e.FromProcess) (he' : e'.FromProcess)
    (h : e.key = e'.key) : e = e' := by
  rcases he with ⟨⟨pid, hsource⟩, hkind⟩
  rcases he' with ⟨⟨pid', hsource'⟩, hkind'⟩
  have hbar : "|".toList = ['|'] := rfl
  have hkey := congrArg String.toList h
  simp only [key, String.toList_append, hbar, append_assoc, singleton_append] at hkey
  -- the source ends at the first separator, and the kind starts behind the last one
  have hfirst := Framing.append_cons_inj_of_first hkey
    (hsource ▸ notMem_processID pid) (hsource' ▸ notMem_processID pid')
  have hlast := HashChain.append_cons_inj_of_notMem hfirst.2 hkind hkind'
  cases e
  cases e'
  simp_all [String.toList_inj]

theorem fromProcess_of_implied {e : Event} {edge : Edge} (h : edge ∈ impliedEdges e) :
    edge.FromProcess := by
  have htable : ∀ entry ∈ fileEdgeKinds, '|' ∉ entry.2.toList := by decide
  have hnames : ∀ kind ∈ ["accessed", "spawned", "resolved", "connected"], '|' ∉ kind.toList := by
    decide
  have hobjects : ∀ o ∈ objects e, '|' ∉ o.2.toList := by
    unfold objects
    split_ifs <;> simp only [mem_singleton, forall_eq, not_mem_nil, false_implies, implies_true]
    · unfold edgeKind
      cases hkind : fileEdgeKinds.lookup e.action with
      | none => exact hnames _ (by simp)
      | some kind => exact htable _ (Go.mem_of_lookup hkind)
    · exact hnames _ (by simp)
    · exact hnames _ (by simp)
  simp only [impliedEdges, mem_append, mem_map] at h
  rcases h with ⟨p, -, rfl⟩ | ⟨o, ho, rfl⟩
  · exact ⟨⟨_, rfl⟩, hnames _ (by simp)⟩
  · exact ⟨⟨_, rfl⟩, hobjects o ho⟩

/-! ## Annotations -/

/-- A severity of the highest rank in `l`, or none where none is known. -/
def Highest (u : Go.Unicode) (l : List String) (severity : String) : Prop :=
  severity = "" ∧ (∀ s ∈ l, severityRank u s = 0) ∨
    severity ∈ l ∧ 0 < severityRank u severity ∧ ∀ s ∈ l, severityRank u s ≤ severityRank u severity

theorem severityRank_empty (u : Go.Unicode) : severityRank u "" = 0 := rfl

theorem highest_foldl (u : Go.Unicode) (l : List String) :
    Highest u l (l.foldl (raiseSeverity u) "") := by
  induction l using List.reverseRecOn with
  | nil => exact .inl ⟨rfl, by simp⟩
  | append_singleton l s ih =>
    rw [foldl_append, foldl_cons, foldl_nil, raiseSeverity]
    generalize l.foldl (raiseSeverity u) "" = severity at ih ⊢
    unfold Highest at ih ⊢
    simp only [mem_append, mem_singleton, or_imp, forall_and, forall_eq]
    rcases ih with ⟨rfl, hzero⟩ | ⟨hmem, hpos, hle⟩
    · rw [severityRank_empty]
      split_ifs with hlt
      · exact .inr ⟨.inr rfl, hlt, fun x hx => by simp [hzero x hx], le_rfl⟩
      · exact .inl ⟨rfl, hzero, by omega⟩
    · split_ifs with hlt
      · exact .inr ⟨.inr rfl, by omega, fun x hx => (hle x hx).trans hlt.le, le_rfl⟩
      · exact .inr ⟨.inl hmem, hpos, hle, by omega⟩

theorem foldl_addTechnique (l : List String) :
    (l.foldl addTechnique []).Pairwise (· < ·) ∧
      ∀ t, t ∈ l.foldl addTechnique [] ↔ t ≠ "" ∧ t ∈ l := by
  induction l using List.reverseRecOn with
  | nil => simp
  | append_singleton l technique ih =>
    rw [foldl_append, foldl_cons, foldl_nil, addTechnique]
    generalize l.foldl addTechnique [] = techniques at ih ⊢
    rcases ih with ⟨hsorted, hmem⟩
    split_ifs with hnew
    · have hnodup : ((techniques ++ [technique]).map id).Nodup := by
        rw [map_id, ← concat_eq_append]
        exact Nodup.concat hnew.2 (hsorted.imp ne_of_lt)
      refine ⟨Ranking.pairwise_insertionSort_of_nodup hnodup, fun t => ?_⟩
      rw [mem_insertionSort, mem_append, mem_append, hmem, mem_singleton]
      have hne := hnew.1
      aesop
    · refine ⟨hsorted, fun t => ?_⟩
      rw [mem_append, mem_singleton, hmem]
      have hold : technique ≠ "" → technique ∈ l := fun hne =>
        ((hmem technique).mp (not_not.mp fun h => hnew ⟨hne, h⟩)).2
      aesop

theorem foldl_mark (u : Go.Unicode) (l : List Annotation) (node : Node) :
    l.foldl (mark u) node =
      { node with
        alerting := node.alerting || !l.isEmpty
        techniques := (l.map (·.techniqueID)).foldl addTechnique node.techniques
        severity := (l.map (·.severity)).foldl (raiseSeverity u) node.severity } := by
  induction l generalizing node with
  | nil => simp
  | cons ann l ih => rw [foldl_cons, ih]; simp [mark]

/-- The annotations of the process with an id. -/
def marksOn (annotations : List Annotation) (id : String) : List Annotation :=
  annotations.filter fun ann => processID ann.pid = id

theorem marksOn_processID (annotations : List Annotation) (pid : UInt32) :
    marksOn annotations (processID pid) = annotations.filter (·.pid = pid) := by
  have hinj : Function.Injective processID := by
    intro pid pid' h
    simp only [processID, String.append_right_inj] at h
    exact UInt32.toNat_inj.mp (Go.formatUint_injective h)
  simp [marksOn, hinj.eq_iff]

theorem foldl_annotate (u : Go.Unicode) (annotations : List Annotation) (b : Builder) :
    (∀ id, (annotations.foldl (Builder.annotate u) b).nodes[id]? =
      b.nodes[id]?.map ((marksOn annotations id).foldl (mark u))) ∧
    (annotations.foldl (Builder.annotate u) b).order = b.order ∧
    (annotations.foldl (Builder.annotate u) b).edges = b.edges := by
  induction annotations using List.reverseRecOn with
  | nil => simp [marksOn]
  | append_singleton annotations ann ih =>
    rw [foldl_append, foldl_cons, foldl_nil]
    rcases ih with ⟨hnodes, horder, hedges⟩
    refine ⟨fun id => ?_, horder, hedges⟩
    simp only [Builder.annotate, ExtTreeMap.getElem?_modify, hnodes, marksOn, filter_append]
    by_cases hid : processID ann.pid = id
    · simp [hid, Function.comp_def]
    · simp [hid]

/-! ## The graph -/

variable {u : Go.Unicode} {annotations : List Annotation} {b : Builder} {ids : List String}
  {edges : List Edge}

theorem mem_edges_iff (h : ∀ key, b.edges[key]? = edges.find? (·.key = key))
    (hfrom : ∀ edge ∈ edges, edge.FromProcess) {edge : Edge} :
    edge ∈ b.edges.toList.map Prod.snd ↔ edge ∈ edges := by
  simp only [mem_map, Prod.exists, exists_eq_right, ExtTreeMap.mem_toList_iff_getElem?_eq_some, h]
  constructor
  · rintro ⟨key, hfind⟩
    exact mem_of_find?_eq_some hfind
  · intro hedge
    have hsome : (edges.find? (·.key = edge.key)).isSome :=
      find?_isSome.mpr ⟨edge, hedge, decide_eq_true rfl⟩
    rcases Option.isSome_iff_exists.mp hsome with ⟨other, hother⟩
    have heq := Edge.key_inj (hfrom _ (mem_of_find?_eq_some hother)) (hfrom _ hedge)
      (by simpa using find?_some hother)
    exact ⟨edge.key, heq ▸ hother⟩

theorem nodup_places (h : ∀ key, b.edges[key]? = edges.find? (·.key = key)) :
    ((b.edges.toList.map Prod.snd).map Edge.place).Nodup := by
  have hkeys : (b.edges.toList.map Prod.snd).map Edge.key = b.edges.keys := by
    rw [← ExtTreeMap.map_fst_toList_eq_keys, map_map]
    refine map_congr_left fun ⟨key, edge⟩ hentry => ?_
    rw [ExtTreeMap.mem_toList_iff_getElem?_eq_some, h] at hentry
    simpa using find?_some hentry
  have hnodup : ((b.edges.toList.map Prod.snd).map Edge.key).Nodup := hkeys ▸ ExtTreeMap.nodup_keys
  refine (Nodup.of_map _ hnodup).map fun a b h => ?_
  cases a
  cases b
  simp_all [Edge.place]

theorem id_foldl_mark {id : String} {node : Node} (h : node.Fresh id) (l : List Annotation) :
    (l.foldl (mark u) node).id = id := by
  rw [foldl_mark]
  exact h.id_eq

/-- The nodes that are put into the graph have the ids of `order`. -/
theorem map_id_nodes (h : Shows b ids edges) {nodes : ExtTreeMap String Node}
    (hnodes : ∀ id, nodes[id]? = b.nodes[id]?.map ((marksOn annotations id).foldl (mark u))) :
    (b.order.filterMap (nodes[·]?)).map Node.id = b.order := by
  have hid : ∀ id ∈ b.order, (nodes[id]?).map Node.id = some id := by
    intro id hmem
    rw [h.mem_order, ← h.mem_nodes, ExtTreeMap.mem_iff_isSome_getElem?] at hmem
    rcases Option.isSome_iff_exists.mp hmem with ⟨node, hnode⟩
    rw [hnodes, hnode, Option.map_some, Option.map_some, id_foldl_mark (h.fresh id node hnode)]
  rw [map_filterMap, filterMap_congr hid, filterMap_some]

section
variable (u : Go.Unicode) (host : String) (events : List Event) (annotations : List Annotation)

theorem map_id_nodes_build :
    ∃ nodes : List Node, (build u host events annotations).nodes =
        nodes.insertionSort (fun a b => a.id ≤ b.id) ∧
      nodes.map Node.id = (events.foldl Builder.addEvent {}).order := by
  rcases foldl_annotate u annotations (events.foldl Builder.addEvent {}) with ⟨hnodes, horder, -⟩
  refine ⟨_, rfl, ?_⟩
  rw [horder]
  exact map_id_nodes (shows_events events) hnodes

theorem pairwise_nodes_build :
    (build u host events annotations).nodes.Pairwise fun a b => a.id < b.id := by
  rcases map_id_nodes_build u host events annotations with ⟨nodes, hnodes, hids⟩
  rw [hnodes]
  apply Ranking.pairwise_insertionSort_of_nodup
  rw [hids]
  exact (shows_events events).order_nodup

theorem mem_nodes_build (id : String) :
    id ∈ (build u host events annotations).nodes.map Node.id ↔ ∃ e ∈ events, id ∈ nodeIDs e := by
  rcases map_id_nodes_build u host events annotations with ⟨nodes, hnodes, hids⟩
  rw [hnodes, ((perm_insertionSort _ _).map _).mem_iff, hids, (shows_events events).mem_order,
    mem_flatMap]

theorem edges_build :
    (build u host events annotations).edges =
      ((events.foldl Builder.addEvent {}).edges.toList.map Prod.snd).insertionSort
        fun a b => a.place ≤ b.place := by
  rw [build, Builder.finish, (foldl_annotate u annotations _).2.2]

theorem pairwise_edges_build :
    (build u host events annotations).edges.Pairwise fun a b => a.place < b.place := by
  rw [edges_build]
  exact Ranking.pairwise_insertionSort_of_nodup (nodup_places (shows_events events).edges)

theorem mem_edges_build (edge : Edge) :
    edge ∈ (build u host events annotations).edges ↔ ∃ e ∈ events, edge ∈ impliedEdges e := by
  have hfrom : ∀ edge ∈ events.flatMap impliedEdges, edge.FromProcess := by
    intro edge hedge
    rcases mem_flatMap.mp hedge with ⟨e, -, he⟩
    exact fromProcess_of_implied he
  rw [edges_build, mem_insertionSort, mem_edges_iff (shows_events events).edges hfrom, mem_flatMap]

end

/-- The marks of a process: the techniques, sorted, and a highest severity of its annotations. -/
structure Node.Marked (u : Go.Unicode) (annotations : List Annotation) (node : Node) : Prop where
  sorted : node.techniques.Pairwise (· < ·)
  techniques : ∀ t, t ∈ node.techniques ↔
    t ≠ "" ∧ ∃ ann ∈ annotations, ann.pid = node.pid ∧ ann.techniqueID = t
  severity : Highest u ((annotations.filter (·.pid = node.pid)).map (·.severity)) node.severity

theorem marked_of_mem {host : String} {events : List Event} {node : Node}
    (hnode : node ∈ (build u host events annotations).nodes) (hkind : node.kind = kindProcess) :
    node.Marked u annotations := by
  rw [build, Builder.finish, mem_insertionSort, mem_filterMap] at hnode
  rcases hnode with ⟨id, -, hlookup⟩
  rw [(foldl_annotate u annotations _).1] at hlookup
  rcases Option.map_eq_some_iff.mp hlookup with ⟨old, hold, rfl⟩
  have hfresh := (shows_events events).fresh id old hold
  rw [foldl_mark, hfresh.techniques, hfresh.severity] at hkind ⊢
  rw [hfresh.process hkind, marksOn_processID]
  rcases foldl_addTechnique ((annotations.filter (·.pid = old.pid)).map (·.techniqueID)) with
    ⟨hsorted, hmem⟩
  refine ⟨hsorted, fun t => ?_, highest_foldl u _⟩
  rw [hmem, mem_map]
  simp [and_assoc]

theorem Highest.severityRank_eq {l l' : List String} {s s' : String} (h : Highest u l s)
    (h' : Highest u l' s') (hmem : ∀ x, x ∈ l' ↔ x ∈ l) : severityRank u s' = severityRank u s := by
  rcases h with ⟨rfl, hzero⟩ | ⟨hs, hpos, hle⟩
  · rcases h' with ⟨rfl, -⟩ | ⟨hs', hpos', -⟩
    · rfl
    · exact absurd (hzero s' ((hmem s').mp hs')) hpos'.ne'
  · rcases h' with ⟨rfl, hzero'⟩ | ⟨hs', -, hle'⟩
    · exact absurd (hzero' s ((hmem s).mpr hs)) hpos.ne'
    · exact le_antisymm (hle s' ((hmem s').mp hs')) (hle' s ((hmem s).mpr hs))

/-- A shell that starts a program. -/
def twoExecs : List Event :=
  [{ action := "fork", process := { pid := 2, ppid := 1 } },
   { action := "exec", process := { pid := 3, ppid := 2 } }]

end ArgusEdr.Investigate
