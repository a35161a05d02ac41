import ArgusEdr.Lib.Fallible
import ArgusEdr.Sigma.MeaningTheorems

/-!
# When the trees of a detection block compile

`Loads c P` says that the tree `c` compiles exactly if `P` holds. The trees of leaves, fields and
selections are followed through the importer: what `compileLeaf` checks and the importer does not
is that the value of a comparison is a number, and that a group has a member
(`loads_compileSelection`). A tree of a condition compiles exactly if the trees of the selections
it speaks of do (`load_operands`).
-/

namespace ArgusEdr.Sigma

open List

open Go (Library Unicode)
open Detect (Condition Value compileLeaf)
open Fallible (bind_eq_ok mapM_eq_ok foldlM_invariant)

variable [Library]

/-! ## Trees and groups -/

/-- The tree compiles exactly if `P` holds. A group has no operator of its own, which anchoring
would drop. -/
structure Loads (c : Condition) (P : Prop) : Prop where
  op : isAndGroup c = true → c.op = ""
  compiles : c.Compiles ↔ P

/-- The trees are the members of a group that compiles exactly if `P` holds. -/
structure GroupLoads (cs : List Condition) (P : Prop) : Prop where
  nonempty : cs ≠ []
  op : ∀ c ∈ cs, isAndGroup c = true → c.op = ""
  compiles : (∀ c ∈ cs, c.Compiles) ↔ P

section
variable {c : Condition} {cs ds : List Condition} {P Q : Prop}

theorem Loads.of_iff (h : Loads c P) (hPQ : P ↔ Q) : Loads c Q := ⟨h.op, h.compiles.trans hPQ⟩

theorem Loads.singleton (h : Loads c P) : GroupLoads [c] P :=
  ⟨cons_ne_nil _ _, forall_mem_singleton.mpr h.op,
    forall_mem_singleton.trans h.compiles⟩

theorem GroupLoads.append (hc : GroupLoads cs P) (hd : GroupLoads ds Q) :
    GroupLoads (cs ++ ds) (P ∧ Q) := by
  refine ⟨append_ne_nil_of_left_ne_nil hc.nonempty _, ?_, ?_⟩
  · exact forall_mem_append.mpr ⟨hc.op, hd.op⟩
  · rw [forall_mem_append, hc.compiles, hd.compiles]

theorem GroupLoads.of_singleton (h : GroupLoads [c] P) : Loads c P :=
  ⟨h.op c (mem_singleton_self c), forall_mem_singleton.symm.trans h.compiles⟩

theorem GroupLoads.allOf (h : GroupLoads cs P) : Loads (allOf cs) P := by
  unfold Sigma.allOf
  split
  · exact h.of_singleton
  · refine ⟨fun _ => rfl, ?_⟩
    rw [Detect.compiles_allOf, h.compiles]
    exact and_iff_right h.nonempty

theorem GroupLoads.anyOf (h : GroupLoads cs P) : Loads (anyOf cs) P := by
  unfold Sigma.anyOf
  split
  · exact h.of_singleton
  · refine ⟨fun _ => rfl, ?_⟩
    rw [Detect.compiles_anyOf, h.compiles]
    exact and_iff_right h.nonempty

theorem Loads.notOf (h : Loads c P) : Loads (.notOf c) P :=
  ⟨fun _ => rfl, Detect.compiles_notOf.trans h.compiles⟩

theorem groupLoads_of_mapM {ε α : Type} {f : α → Except ε Condition} {P : α → Prop} {l : List α}
    (hf : ∀ a ∈ l, ∀ c, f a = .ok c → Loads c (P a)) (hne : l ≠ []) (h : l.mapM f = .ok cs) :
    GroupLoads cs (∀ a ∈ l, P a) := by
  have hrel := mapM_eq_ok.mp h
  clear h
  induction hrel with
  | nil => exact absurd rfl hne
  | @cons a c l cs hc hrest ih =>
    obtain ⟨hfa, hfl⟩ := forall_mem_cons.mp hf
    have hfirst : GroupLoads [c] (P a) := (hfa c hc).singleton
    cases l with
    | nil =>
      cases hrest
      simpa using hfirst
    | cons =>
      have hgroup := hfirst.append (ih hfl (cons_ne_nil _ _))
      rwa [← forall_mem_cons] at hgroup

theorem loads_leaf {field op : String} {value : Value}
    (h : (∃ p, compileLeaf field op value = .ok p) ↔ P) : Loads (.leaf field op value) P :=
  ⟨fun hgroup => absurd hgroup (by simp [isAndGroup, Condition.leaf]),
    Detect.compiles_leaf.trans h⟩

end

/-! ## Leaves -/

def comparisons : List String := ["gt", "lt", "ge", "le"]

def leafOps : List String :=
  ["eq", "contains", "startswith", "endswith", "regex", "cidr"] ++ comparisons

/-- The operators modifiers stand for, with the empty one if there is none. -/
def explicitOps : List String :=
  ["", "contains", "startswith", "endswith", "regex", "cidr"] ++ comparisons

variable {field op : String} {value : Value} {c : Condition}

/-- Of a leaf that passed the importer's check, the engine asks for a number to compare with. -/
theorem exists_compileLeaf_iff (hfield : Model.knownField field = true) (hop : op ∈ leafOps)
    (hvalid : validateOperatorValue op value = .ok ()) :
    (∃ p, compileLeaf field op value = .ok p) ↔
      (op ∈ comparisons → (Detect.toInt64 value).isSome = true) := by
  have hne : field ≠ "" := by
    rintro rfl
    exact absurd hfield (by decide)
  have hcompare : ∀ op, (∃ p, Detect.numberCompare field op value = .ok p) ↔
      (Detect.toInt64 value).isSome = true := by
    intro op
    rw [Detect.numberCompare]
    cases Detect.toInt64 value with
    | none | some => simp
  simp only [leafOps, comparisons, cons_append, nil_append, mem_cons,
    not_mem_nil, or_false] at hop
  obtain rfl | rfl | rfl | rfl | rfl | rfl | rfl | rfl | rfl | rfl := hop
  · simp [compileLeaf, hne, hfield, comparisons]
  · simp [compileLeaf, hne, hfield, comparisons, Detect.stringMatch]
  · simp [compileLeaf, hne, hfield, comparisons, Detect.stringMatch]
  · simp [compileLeaf, hne, hfield, comparisons, Detect.stringMatch]
  · cases hregexp : Library.regexp (Detect.toString value) with
    | error => simp [validateOperatorValue, hregexp] at hvalid
    | ok => simp [compileLeaf, hne, hfield, comparisons, Detect.regexMatch, hregexp]
  · cases hcidr : Library.cidr (Detect.toString value) with
    | error => simp [validateOperatorValue, hcidr] at hvalid
    | ok => simp [compileLeaf, hne, hfield, comparisons, Detect.cidrMatch, hcidr]
  all_goals simp [compileLeaf, hne, hfield, comparisons, hcompare]

omit [Library] in
theorem inferStringOp_mem (value : String) :
    (inferStringOp value).1 ∈ ["eq", "contains", "startswith", "endswith", "regex"] := by
  unfold inferStringOp
  dsimp only
  split
  · simp
  · split
    · simp
    · split
      · simp
      · split <;> simp

theorem leafParts_empty (value : Value) :
    (leafParts "" value).1 ∈ leafOps ∧ (leafParts "" value).1 ∉ comparisons := by
  have hinferred : ∀ op ∈ ["eq", "contains", "startswith", "endswith", "regex"],
      op ∈ leafOps ∧ op ∉ comparisons := by decide
  unfold leafParts
  rw [if_pos rfl]
  split
  · next text =>
    dsimp only
    exact hinferred _ (inferStringOp_mem text)
  · exact hinferred "eq" (by decide)

theorem leafParts_of_ne (h : op ≠ "") (value : Value) : leafParts op value = (op, value) := by
  unfold leafParts
  exact if_neg h

theorem of_valueLeaf_eq_ok (h : valueLeaf field op value = .ok c) :
    validateOperatorValue (leafParts op value).1 (leafParts op value).2 = .ok () ∧
      c = .leaf field (leafParts op value).1 (leafParts op value).2 := by
  unfold valueLeaf at h
  generalize leafParts op value = parts at h ⊢
  obtain ⟨⟨⟩, hvalid, hleaf⟩ := bind_eq_ok.mp h
  cases hleaf
  exact ⟨hvalid, rfl⟩

theorem loads_valueLeaf (hfield : Model.knownField field = true) (hop : op ∈ explicitOps)
    (h : valueLeaf field op value = .ok c) :
    Loads c (op ∈ comparisons → (Detect.toInt64 value).isSome = true) := by
  obtain ⟨hvalid, rfl⟩ := of_valueLeaf_eq_ok h
  by_cases hempty : op = ""
  · subst hempty
    obtain ⟨hmem, hnot⟩ := leafParts_empty value
    refine (loads_leaf (exists_compileLeaf_iff hfield hmem hvalid)).of_iff ?_
    exact iff_of_true (fun hcompare => absurd hcompare hnot) fun hcompare =>
      absurd hcompare (by decide)
  · have hleafOp : op ∈ leafOps := by
      have hops : ∀ op ∈ explicitOps, op ≠ "" → op ∈ leafOps := by decide
      exact hops op hop hempty
    rw [leafParts_of_ne hempty] at hvalid ⊢
    exact loads_leaf (exists_compileLeaf_iff hfield hleafOp hvalid)

/-! ## Fields -/

section
variable {u : Unicode} {d : Decoding}

omit [Library] in
theorem addModifier_mem {s s' : String × Bool} {modifier : String} (hs : s.1 ∈ explicitOps)
    (h : addModifier u s modifier = .ok s') : s'.1 ∈ explicitOps := by
  simp only [addModifier] at h
  split_ifs at h with hall hstring hre hcidr hless hgte hlte
  · cases h
    exact hs
  · cases h
    obtain hlower | hlower | hlower := hstring
    all_goals simp [hlower, explicitOps]
  · cases h
    simp [explicitOps]
  · cases h
    simp [explicitOps]
  · cases h
    obtain hlower | hlower := hless
    all_goals simp [hlower, explicitOps, comparisons]
  all_goals
    cases h
    simp [explicitOps, comparisons]

omit [Library] in
theorem modifierOp_mem {modifiers : List String} {requireAll : Bool}
    (h : modifierOp u modifiers = .ok (op, requireAll)) : op ∈ explicitOps := by
  have hfirst : ("", false).1 ∈ explicitOps := by decide
  exact foldlM_invariant (fun _ _ _ hs => addModifier_mem hs) hfirst h

omit [Library] in
theorem knownField_of_argusField {name : String} (h : argusField u name = some field) :
    Model.knownField field = true := by
  have htable : ∀ entry ∈ sigmaFields, Model.knownField entry.2 = true := by decide
  exact htable _ (Go.mem_of_lookup h)

variable (u d) in
/-- What the engine asks of an entry beyond what the importer checks: numbers to compare with. -/
def EntryLoadable (entry : String × Node) : Prop :=
  ∀ op requireAll values, modifierOp u (Go.split entry.1 '|').tail = .ok (op, requireAll) →
    decodeValues d entry.2 = .ok values → op ∈ comparisons →
    ∀ value ∈ values, (Detect.toInt64 value).isSome = true

theorem loads_fieldCondition {rawKey : String} {node : Node}
    (h : fieldCondition u d rawKey node = .ok c) : Loads c (EntryLoadable u d (rawKey, node)) := by
  unfold fieldCondition at h
  dsimp only at h
  split at h
  · cases h
  · next field hfield =>
    obtain ⟨⟨op, requireAll⟩, hop, h⟩ := bind_eq_ok.mp h
    obtain ⟨values, hvalues, h⟩ := bind_eq_ok.mp h
    dsimp only at h
    split at h
    · cases h
    · next hne =>
      obtain ⟨leaves, hleaves, h⟩ := bind_eq_ok.mp h
      have hgroup := groupLoads_of_mapM (fun value _ c hc =>
        loads_valueLeaf (knownField_of_argusField hfield) (modifierOp_mem hop) hc)
        (fun hnil => hne (isEmpty_iff.mpr hnil)) hleaves
      have hiff : (∀ value ∈ values, op ∈ comparisons → (Detect.toInt64 value).isSome = true) ↔
          EntryLoadable u d (rawKey, node) := by
        constructor
        · intro hall op' requireAll' values' hop' hvalues' hcompare value hvalue
          cases hop.symm.trans hop'
          cases hvalues.symm.trans hvalues'
          exact hall value hvalue hcompare
        · intro hentry value hvalue hcompare
          exact hentry op requireAll values hop hvalues hcompare value hvalue
      cases h
      cases requireAll with
      | true => exact hgroup.allOf.of_iff hiff
      | false => exact hgroup.anyOf.of_iff hiff

/-! ## Selections -/

theorem loads_selectionMap {node : Node} (h : selectionMap u d node = .ok c) :
    Loads c (∀ entry ∈ entries node.content, EntryLoadable u d entry) := by
  obtain ⟨leaves, hleaves, h⟩ := bind_eq_ok.mp h
  split at h
  · cases h
  · next hne =>
    cases h
    have hsorted : (entries node.content).insertionSort (fun a b => a.1 ≤ b.1) ≠ [] := by
      intro hnil
      rw [hnil] at hleaves
      cases hleaves
      exact hne rfl
    have hgroup := groupLoads_of_mapM (fun entry _ c hc => loads_fieldCondition hc) hsorted hleaves
    refine hgroup.allOf.of_iff ?_
    simp only [mem_insertionSort]

theorem loads_alternative {item : Node} (h : alternative u d item = .ok c) :
    Loads c (∀ entry ∈ entries item.content, EntryLoadable u d entry) := by
  unfold alternative at h
  split at h
  · cases h
  · exact loads_selectionMap h

variable (u d) in
/-- What the engine asks of a selection beyond what the importer checks: a list of maps is not
empty, and the entries have numbers to compare with. -/
def SelectionLoadable (node : Node) : Prop :=
  match node.kind with
  | .sequence => node.content ≠ [] ∧
      ∀ item ∈ node.content, ∀ entry ∈ entries item.content, EntryLoadable u d entry
  | _ => ∀ entry ∈ entries node.content, EntryLoadable u d entry

theorem loads_compileSelection {node : Node} (h : compileSelection u d node = .ok c) :
    Loads c (SelectionLoadable u d node) := by
  unfold compileSelection at h
  unfold SelectionLoadable
  split at h
  · next hkind =>
    rw [hkind]
    exact loads_selectionMap h
  · next hkind =>
    rw [hkind]
    obtain ⟨alternatives, halternatives, h⟩ := bind_eq_ok.mp h
    cases h
    by_cases hne : node.content = []
    · rw [hne] at halternatives ⊢
      cases halternatives
      refine ⟨fun _ => rfl, Detect.compiles_anyOf.trans ?_⟩
      simp
    · have hgroup := groupLoads_of_mapM (fun item _ c hc => loads_alternative hc) hne
        halternatives
      exact hgroup.anyOf.of_iff (and_iff_right hne).symm
  · cases h

end

/-! ## Conditions -/

/-- The tree of an expression compiles exactly if `P` holds, and so do its operands together. -/
structure Operands.Load (x : Operands) (P : Prop) : Prop where
  tree : Loads x.tree P
  ands : GroupLoads x.ands P
  ors : GroupLoads x.ors P

section
variable {P Q : Prop}

theorem Operands.load_single {tree : Condition} (h : Loads tree P) :
    (Operands.single tree).Load P :=
  ⟨h, h.singleton, h.singleton⟩

theorem Operands.Load.and {l r : Operands} (hl : l.Load P) (hr : r.Load Q) :
    (l.and r).Load (P ∧ Q) := by
  have hands : GroupLoads (l.ands ++ [r.tree]) (P ∧ Q) := hl.ands.append hr.tree.singleton
  exact ⟨hands.allOf, hands, hands.allOf.singleton⟩

theorem Operands.Load.or {l r : Operands} (hl : l.Load P) (hr : r.Load Q) :
    (l.or r).Load (P ∧ Q) := by
  have hors : GroupLoads (l.ors ++ [r.tree]) (P ∧ Q) := hl.ors.append hr.tree.singleton
  exact ⟨hors.anyOf, hors.anyOf.singleton, hors⟩

variable {u : Unicode} {names : List String} {selection : String → Condition}
  {loadable : String → Prop}

theorem groupLoads_matchedBy (hsel : ∀ n ∈ names, Loads (selection n) (loadable n))
    {pattern : Pattern} (hmatches : ∃ n ∈ names, pattern.matches n = true) :
    GroupLoads (matchedBy selection names pattern)
      (∀ n ∈ names.filter pattern.matches, loadable n) := by
  have hmatched : ∀ n ∈ names.filter pattern.matches, Loads (selection n) (loadable n) :=
    fun n hn => hsel n (mem_of_mem_filter hn)
  refine ⟨matchedBy_ne_nil.mpr hmatches, ?_, ?_⟩
  · exact forall_mem_map.mpr fun n hn => (hmatched n hn).op
  · rw [matchedBy, forall_mem_map]
    exact forall₂_congr fun n hn => (hmatched n hn).compiles

theorem load_operands (hsel : ∀ n ∈ names, Loads (selection n) (loadable n)) {k : ℕ} {x : Expr}
    {ts : List String} (h : x.Written u names k ts) :
    (x.operands selection names).Load (∀ n ∈ x.mentions names, loadable n) := by
  induction h with
  | @name _ n _ _ hn =>
    refine Operands.load_single ((hsel n hn).of_iff ?_)
    exact forall_mem_singleton.symm
  | @quantified _ all pattern _ _ _ _ _ _ _ hmatches =>
    have hgroup := groupLoads_matchedBy hsel hmatches
    refine Operands.load_single ?_
    cases all with
    | true => exact hgroup.allOf
    | false => exact hgroup.anyOf
  | not _ _ _ ih => exact Operands.load_single ih.tree.notOf
  | paren _ _ ih => exact Operands.load_single ih.tree
  | and _ _ _ _ ihl ihr =>
    have hand := ihl.and ihr
    rwa [← forall_mem_append] at hand
  | or _ _ _ ihl ihr =>
    have hor := ihl.or ihr
    rwa [← forall_mem_append] at hor

theorem loads_tree (hsel : ∀ n ∈ names, Loads (selection n) (loadable n)) {x : Expr}
    {text : String} (h : x.WrittenAs u names text) :
    Loads (x.tree selection names) (∀ n ∈ x.mentions names, loadable n) := by
  obtain ⟨tokens, hwritten, -⟩ := h
  exact (load_operands hsel hwritten).tree

end

end ArgusEdr.Sigma
