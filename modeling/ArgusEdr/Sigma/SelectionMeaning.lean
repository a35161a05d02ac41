import ArgusEdr.Detect.Tree
import ArgusEdr.Sigma.SelectionTheorems

/-!
# What a selection means

`SelectionHolds` is what Sigma says of a selection, from the truth of its single comparisons: every
field of a map, some map of a list, some value of a field, or every value if the key of the field
carries `all`. The importer sorts the entries of a map, nests groups and leaves out groups of one
member; `compileSelection_means` says that none of it changes what the tree means, and that
the order of the keys in the document does not either.
-/

namespace ArgusEdr.Sigma

open List

open Detect (Condition Value)
open Fallible (bind_eq_ok mapM_eq_ok exists_mapM_eq_ok exists_mem_of_forall₂)
open Go (Library Unicode)

/-! ## The meaning in Sigma -/

section
variable (u : Unicode)

def CarriesAll (key : String) : Prop :=
  ∃ modifier ∈ (Go.split key '|').tail, Go.toLower u modifier = "all"

variable [Library] (d : Decoding) (truth : String → String → Value → Bool)

/-- A value of a field matches: the comparison the importer makes of it is true. -/
def ValueMatches (field op : String) (value : Value) : Prop :=
  truth field (leafParts op value).1 (leafParts op value).2 = true

/-- A field holds: some value matches, or every value if the key carries `all`. -/
def FieldHolds (entry : String × Node) : Prop :=
  ∃ field op requireAll values,
    argusField u ((Go.split entry.1 '|').headD "") = some field ∧
    modifierOp u (Go.split entry.1 '|').tail = .ok (op, requireAll) ∧
    decodeValues d entry.2 = .ok values ∧
    (CarriesAll u entry.1 → ∀ value ∈ values, ValueMatches truth field op value) ∧
    (¬CarriesAll u entry.1 → ∃ value ∈ values, ValueMatches truth field op value)

def MapHolds (node : Node) : Prop := ∀ entry ∈ entries node.content, FieldHolds u d truth entry

def SelectionHolds (node : Node) : Prop :=
  match node.kind with
  | .sequence => ∃ item ∈ node.content, MapHolds u d truth item
  | _ => MapHolds u d truth node

structure Reordered (node node' : Node) : Prop where
  kind : node'.kind = node.kind
  entries : (entries node'.content).Perm (entries node.content)

/-- The same selection, with the entries of its maps in another order. -/
def SelectionReordered (node node' : Node) : Prop :=
  match node.kind with
  | .sequence => node'.kind = .sequence ∧ List.Forall₂ Reordered node.content node'.content
  | _ => Reordered node node'

end

/-! ## Groups -/

section
variable [Library] {truth : String → String → Value → Bool} {ε α : Type}
  {f : α → Except ε Condition} {holds : α → Prop} {l : List α} {cs : List Condition}

theorem meaning_allOf {cs : List Condition} (hne : cs ≠ []) :
    (allOf cs).meaning truth = cs.all fun c => c.meaning truth := by
  unfold allOf
  split
  · simp
  · exact Detect.meaning_allOf hne

theorem meaning_anyOf {cs : List Condition} (hne : cs ≠ []) :
    (anyOf cs).meaning truth = cs.any fun c => c.meaning truth := by
  unfold anyOf
  split
  · simp
  · exact Detect.meaning_anyOf hne

section
variable (hf : ∀ a ∈ l, ∀ c, f a = .ok c → (c.meaning truth = true ↔ holds a))
  (hne : l ≠ []) (h : l.mapM f = .ok cs)
include hf h

theorem members_mean :
    ((∀ c ∈ cs, c.meaning truth = true) ↔ ∀ a ∈ l, holds a) ∧
      ((∃ c ∈ cs, c.meaning truth = true) ↔ ∃ a ∈ l, holds a) := by
  have hrel := mapM_eq_ok.mp h
  clear h
  induction hrel with
  | nil => simp
  | @cons a c l cs hc _ ih =>
    obtain ⟨hfa, hfl⟩ := forall_mem_cons.mp hf
    obtain ⟨hall, hany⟩ := ih hfl
    simp only [mem_cons, forall_eq_or_imp, exists_eq_or_imp, hfa c hc, hall, hany, and_self]

include hne

theorem ne_nil_of_mapM : cs ≠ [] := by
  rintro rfl
  cases mapM_eq_ok.mp h
  exact hne rfl

theorem meaning_allOf_mapM : (allOf cs).meaning truth = true ↔ ∀ a ∈ l, holds a := by
  rw [meaning_allOf (ne_nil_of_mapM hf hne h), all_eq_true]
  exact (members_mean hf h).1

theorem meaning_anyOf_mapM : (anyOf cs).meaning truth = true ↔ ∃ a ∈ l, holds a := by
  rw [meaning_anyOf (ne_nil_of_mapM hf hne h), any_eq_true]
  exact (members_mean hf h).2

end

end

/-! ## Fields -/

section
variable {u : Unicode}

theorem addModifier_requireAll {s s' : String × Bool} {modifier : String}
    (h : addModifier u s modifier = .ok s') :
    s'.2 = true ↔ s.2 = true ∨ Go.toLower u modifier = "all" := by
  simp only [addModifier] at h
  split_ifs at h with hall <;> cases h <;> simp [hall]

variable {op : String}

theorem modifierOp_requireAll {modifiers : List String} {requireAll : Bool}
    (h : modifierOp u modifiers = .ok (op, requireAll)) :
    requireAll = true ↔ ∃ modifier ∈ modifiers, Go.toLower u modifier = "all" := by
  have hloop : ∀ {s s' : String × Bool}, modifiers.foldlM (addModifier u) s = .ok s' →
      (s'.2 = true ↔ s.2 = true ∨ ∃ modifier ∈ modifiers, Go.toLower u modifier = "all") := by
    clear h
    induction modifiers with
    | nil =>
      intro s s' h
      cases h
      simp
    | cons modifier modifiers ih =>
      intro s s' h
      rw [foldlM_cons] at h
      obtain ⟨s₁, hs₁, h⟩ := bind_eq_ok.mp h
      rw [ih h, addModifier_requireAll hs₁, or_assoc]
      simp only [mem_cons, exists_eq_or_imp]
  exact (hloop h).trans (or_iff_right Bool.false_ne_true)

variable [Library] {d : Decoding} {truth : String → String → Value → Bool} {c : Condition}
  {node : Node}

theorem meaning_valueLeaf {field : String} {value : Value} (h : valueLeaf field op value = .ok c) :
    c.meaning truth = true ↔ ValueMatches truth field op value := by
  obtain ⟨-, rfl⟩ := of_valueLeaf_eq_ok h
  rw [Detect.meaning_leaf]
  rfl

theorem meaning_fieldCondition {rawKey : String} (h : fieldCondition u d rawKey node = .ok c) :
    c.meaning truth = true ↔ FieldHolds u d truth (rawKey, node) := by
  unfold fieldCondition at h
  dsimp only at h
  split at h
  · cases h
  · next field hfield =>
    obtain ⟨⟨op, requireAll⟩, hop, h⟩ := bind_eq_ok.mp h
    obtain ⟨values, hvalues, h⟩ := bind_eq_ok.mp h
    dsimp only at h
    split at h
    · cases h
    · next hne =>
      obtain ⟨leaves, hleaves, h⟩ := bind_eq_ok.mp h
      have hne' : values ≠ [] := fun hnil => hne (isEmpty_iff.mpr hnil)
      have hleaf : ∀ value ∈ values, ∀ c, valueLeaf field op value = .ok c →
          (c.meaning truth = true ↔ ValueMatches truth field op value) :=
        fun value _ c hc => meaning_valueLeaf hc
      have hcarries : requireAll = true ↔ CarriesAll u rawKey := modifierOp_requireAll hop
      have hholds : FieldHolds u d truth (rawKey, node) ↔
          (requireAll = true → ∀ value ∈ values, ValueMatches truth field op value) ∧
          (¬requireAll = true → ∃ value ∈ values, ValueMatches truth field op value) := by
        rw [hcarries]
        constructor
        · rintro ⟨field', op', requireAll', values', hfield', hop', hvalues', hmatch⟩
          cases hfield.symm.trans hfield'
          cases hop.symm.trans hop'
          cases hvalues.symm.trans hvalues'
          exact hmatch
        · exact fun hmatch => ⟨field, op, requireAll, values, hfield, hop, hvalues, hmatch⟩
      rw [hholds]
      cases h
      cases requireAll with
      | true => simpa using meaning_allOf_mapM hleaf hne' hleaves
      | false => simpa using meaning_anyOf_mapM hleaf hne' hleaves

/-! ## Selections -/

theorem meaning_selectionMap (h : selectionMap u d node = .ok c) :
    c.meaning truth = true ↔ MapHolds u d truth node := by
  obtain ⟨leaves, hleaves, h⟩ := bind_eq_ok.mp h
  split at h
  · cases h
  · next hne =>
    cases h
    have hsorted : (entries node.content).insertionSort (fun a b => a.1 ≤ b.1) ≠ [] := by
      intro hnil
      rw [hnil] at hleaves
      cases hleaves
      exact hne rfl
    rw [meaning_allOf_mapM (fun entry _ c hc => meaning_fieldCondition hc) hsorted hleaves]
    simp only [mem_insertionSort, MapHolds]

theorem kind_of_alternative {item : Node} (h : alternative u d item = .ok c) :
    item.kind = .mapping ∧ selectionMap u d item = .ok c := by
  unfold alternative at h
  split at h
  · cases h
  · next hkind => exact ⟨not_not.mp hkind, h⟩

theorem meaning_compileSelection (h : compileSelection u d node = .ok c)
    (hne : node.kind = .sequence → node.content ≠ []) :
    c.meaning truth = true ↔ SelectionHolds u d truth node := by
  unfold compileSelection at h
  unfold SelectionHolds
  split at h
  · next hkind =>
    rw [hkind]
    exact meaning_selectionMap h
  · next hkind =>
    rw [hkind]
    obtain ⟨alternatives, halternatives, h⟩ := bind_eq_ok.mp h
    cases h
    exact meaning_anyOf_mapM
      (fun item _ c hc => meaning_selectionMap (kind_of_alternative hc).2) (hne hkind) halternatives
  · cases h

/-! ## The order of the keys -/

theorem exists_selectionMap_iff :
    (∃ c, selectionMap u d node = .ok c) ↔ entries node.content ≠ [] ∧
      ∀ entry ∈ entries node.content, ∃ c, fieldCondition u d entry.1 entry.2 = .ok c := by
  have hmapM : (∃ leaves, ((entries node.content).insertionSort fun a b => a.1 ≤ b.1).mapM
      (fun entry => fieldCondition u d entry.1 entry.2) = .ok leaves) ↔
      ∀ entry ∈ entries node.content, ∃ c, fieldCondition u d entry.1 entry.2 = .ok c := by
    rw [exists_mapM_eq_ok]
    simp only [mem_insertionSort]
  rw [← hmapM]
  constructor
  · rintro ⟨c, h⟩
    obtain ⟨leaves, hleaves, h⟩ := bind_eq_ok.mp h
    refine ⟨?_, leaves, hleaves⟩
    intro hnil
    rw [hnil] at hleaves
    cases hleaves
    cases h
  · rintro ⟨hne, leaves, hleaves⟩
    have hleaf : leaves.isEmpty = false := by
      rw [isEmpty_eq_false_iff]
      rintro rfl
      have hnil := forall₂_nil_right_iff.mp (mapM_eq_ok.mp hleaves)
      have hlen := length_insertionSort (fun a b : String × Node => a.1 ≤ b.1) (entries node.content)
      rw [hnil] at hlen
      exact hne (length_eq_zero_iff.mp hlen.symm)
    refine ⟨allOf leaves, ?_⟩
    rw [selectionMap]
    refine bind_eq_ok.mpr ⟨leaves, hleaves, ?_⟩
    rw [hleaf]
    rfl

section
variable {node node' : Node} {c : Condition}

theorem Reordered.exists_selectionMap (hnode : Reordered node node')
    (h : selectionMap u d node = .ok c) : ∃ c', selectionMap u d node' = .ok c' := by
  obtain ⟨hne, hentries⟩ := exists_selectionMap_iff.mp ⟨c, h⟩
  refine exists_selectionMap_iff.mpr ⟨?_, fun entry hentry => ?_⟩
  · exact fun hnil => hne (perm_nil.mp (hnil ▸ hnode.entries.symm))
  · exact hentries entry (hnode.entries.mem_iff.mp hentry)

theorem Reordered.mapHolds_iff (hnode : Reordered node node') :
    MapHolds u d truth node' ↔ MapHolds u d truth node :=
  forall_congr' fun _ => imp_congr_left hnode.entries.mem_iff

theorem Reordered.exists_alternative (hnode : Reordered node node')
    (h : ∃ c, alternative u d node = .ok c) : ∃ c', alternative u d node' = .ok c' := by
  obtain ⟨c, h⟩ := h
  obtain ⟨hkind, hmap⟩ := kind_of_alternative h
  obtain ⟨c', hc'⟩ := hnode.exists_selectionMap hmap
  refine ⟨c', ?_⟩
  rw [alternative, if_neg (by rw [hnode.kind]; exact not_not.mpr hkind)]
  exact hc'

theorem SelectionReordered.exists_compileSelection (hnode : SelectionReordered node node')
    (h : compileSelection u d node = .ok c) : ∃ c', compileSelection u d node' = .ok c' := by
  unfold SelectionReordered at hnode
  unfold compileSelection at h
  split at h
  · next hkind =>
    rw [hkind] at hnode
    unfold compileSelection
    rw [hnode.kind, hkind]
    exact hnode.exists_selectionMap h
  · next hkind =>
    rw [hkind] at hnode
    obtain ⟨hkind', hitems⟩ := hnode
    obtain ⟨alternatives, halternatives, -⟩ := bind_eq_ok.mp h
    have hitem := exists_mapM_eq_ok.mp ⟨alternatives, halternatives⟩
    have hitem' : ∀ item ∈ node'.content, ∃ c, alternative u d item = .ok c := by
      intro item' hitem'
      obtain ⟨item, hmem, hreordered⟩ := exists_mem_of_forall₂ hitems.flip hitem'
      exact hreordered.exists_alternative (hitem item hmem)
    obtain ⟨alternatives', halternatives'⟩ := exists_mapM_eq_ok.mpr hitem'
    refine ⟨anyOf alternatives', ?_⟩
    unfold compileSelection
    rw [hkind']
    exact bind_eq_ok.mpr ⟨alternatives', halternatives', rfl⟩
  · cases h

theorem SelectionReordered.holds_iff (hnode : SelectionReordered node node') :
    SelectionHolds u d truth node' ↔ SelectionHolds u d truth node := by
  unfold SelectionReordered at hnode
  unfold SelectionHolds
  split at hnode
  · next hkind =>
    obtain ⟨hkind', hitems⟩ := hnode
    rw [hkind']
    constructor
    · rintro ⟨item', hitem', hholds⟩
      obtain ⟨item, hmem, hreordered⟩ := exists_mem_of_forall₂ hitems.flip hitem'
      exact ⟨item, hmem, hreordered.mapHolds_iff.mp hholds⟩
    · rintro ⟨item, hitem, hholds⟩
      obtain ⟨item', hmem, hreordered⟩ := exists_mem_of_forall₂ hitems hitem
      exact ⟨item', hmem, hreordered.mapHolds_iff.mpr hholds⟩
  · next hkind =>
    rw [hnode.kind]
    split
    · next hsequence => exact absurd hsequence hkind
    · exact hnode.mapHolds_iff

/-- The tree of a selection means what Sigma says of the selection, whatever its comparisons are;
with the keys of its maps in another order the selection is accepted, too, and means the same. -/
theorem compileSelection_means (h : compileSelection u d node = .ok c)
    (hne : node.kind = .sequence → node.content ≠ []) :
    (∀ truth, c.meaning truth = true ↔ SelectionHolds u d truth node) ∧
    ∀ node', SelectionReordered node node' →
      ∃ c', compileSelection u d node' = .ok c' ∧ ∀ truth, c'.meaning truth = c.meaning truth := by
  refine ⟨fun truth => meaning_compileSelection h hne, fun node' hnode' => ?_⟩
  obtain ⟨c', hc'⟩ := hnode'.exists_compileSelection h
  have hne' : node'.kind = .sequence → node'.content ≠ [] := by
    intro hkind' hnil
    unfold SelectionReordered at hnode'
    split at hnode'
    · next hkind =>
      rw [hnil, forall₂_nil_right_iff] at hnode'
      exact hne hkind hnode'.2
    · next hkind => exact hkind (hnode'.kind.symm.trans hkind')
  refine ⟨c', hc', fun truth => ?_⟩
  rw [Bool.eq_iff_iff, meaning_compileSelection hc' hne', meaning_compileSelection h hne,
    hnode'.holds_iff]

end

end

/-! ## A selection -/

/-- `{CommandLine|contains|all: [curl, sh], Image: /bin/*}`. -/
def curlSelection : Node where
  kind := .mapping
  tag := "!!map"
  content :=
    [{ kind := .scalar, tag := "!!str", value := "CommandLine|contains|all" },
     { kind := .sequence, tag := "!!seq", content :=
        [{ kind := .scalar, tag := "!!str", value := "curl" },
         { kind := .scalar, tag := "!!str", value := "sh" }] },
     { kind := .scalar, tag := "!!str", value := "Image" },
     { kind := .scalar, tag := "!!str", value := "/bin/*" }]

theorem compileSelection_means_curlSelection :
    letI : Library := .plain
    ∃ c, compileSelection .ascii .plain curlSelection = .ok c ∧
      ∀ truth, c.meaning truth = true ↔ SelectionHolds .ascii .plain truth curlSelection := by
  let _ : Library := .plain
  obtain ⟨c, hc⟩ : ∃ c, compileSelection .ascii .plain curlSelection = .ok c := ⟨_, rfl⟩
  exact ⟨c, hc, (compileSelection_means hc nofun).1⟩

end ArgusEdr.Sigma
