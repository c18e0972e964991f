import PathQuery.Proofs.Document.Filled

namespace PathQuery

open Selection (nestedIn)

def Segment.responseKey (segment : Segment) : Name := segment.alias?.getD segment.field

namespace Selection

def responseKey? : Selection → Option Name
  | field alias? name _ _ => some (alias?.getD name)
  | inline _ _ | spread _ => none

def KeysDiffer (selections : List Selection) : Prop := (selections.filterMap responseKey?).Nodup

end Selection

namespace Document

/-- The lists of selections in a document: of the operation, of the fragments, and of the fields and
inline fragments at any depth. -/
def selectionLists (document : Document) : List (List Selection) :=
  document.selections :: document.fragmentDefinitions.map FragmentDefinition.selections ++
    document.nested.map Selection.selections

def ClashFree (document : Document) : Prop :=
  ∀ selections ∈ document.selectionLists, Selection.KeysDiffer selections

end Document

def Spec.KeysDiffer (spec : Spec) : Prop :=
  ∀ (parent : Chain) (one other : Segment),
    parent ++ [one] ∈ spec.closure → parent ++ [other] ∈ spec.closure →
      one.context = other.context → one.responseKey = other.responseKey → one = other

namespace Query

variable {query : Query} {parent chain : Chain} {context : Context}

def childrenIn (query : Query) (parent : Chain) (context : Context) : List Chain :=
  (query.spec.children parent).filter fun chain => Plan.contextOf chain = context

def keyOf (chain : Chain) : Name := chain.getLast?.elim .typename Segment.responseKey

theorem responseKey?_field (query : Query) (chain : Chain) :
    (query.field chain).responseKey? = some (keyOf chain) := by
  rw [field, node, keyOf]
  cases chain.getLast? <;> rfl

theorem filterMap_responseKey?_fields (query : Query) (chains : List Chain) :
    (chains.map query.field).filterMap Selection.responseKey? = chains.map keyOf := by
  rw [List.filterMap_map, ← List.filterMap_eq_map]
  exact congrArg (List.filterMap · chains) (funext query.responseKey?_field)

theorem filterMap_responseKey?_wrap (context : Context) (fields : List Selection) :
    (context.wrap fields).filterMap Selection.responseKey? =
      if context = .plain then fields.filterMap Selection.responseKey? else [] := by
  cases context <;> rfl

/-- Only the children outside any fragment are fields of their parent's own list. -/
theorem filterMap_responseKey?_selections (query : Query) (parent : Chain) :
    (query.selections parent).filterMap Selection.responseKey? =
      (query.childrenIn parent .plain).map keyOf := by
  rw [childrenIn, ← flatMap_groups, selections_eq, List.filterMap_flatMap, List.filter_flatMap,
    List.map_flatMap]
  refine List.flatMap_congr fun group member => ?_
  have same : ∀ chain ∈ group.2, Plan.contextOf chain = group.1 :=
    fun chain inside => (mem_of_mem_group member inside).2
  rw [filterMap_responseKey?_wrap, filterMap_responseKey?_fields]
  split
  · next plain =>
    have all : group.2.filter (fun chain => Plan.contextOf chain = .plain) = group.2 :=
      List.filter_eq_self.mpr fun chain inside => decide_eq_true ((same chain inside).trans plain)
    rw [all]
  · next wrapped =>
    have none : group.2.filter (fun chain => Plan.contextOf chain = .plain) = [] :=
      List.filter_eq_nil_iff.mpr fun chain inside => by simpa [same chain inside] using wrapped
    rw [none]
    rfl

theorem mem_childrenIn {segment : Segment} :
    parent ++ [segment] ∈ query.childrenIn parent context ↔
      parent ++ [segment] ∈ query.spec.closure ∧ segment.context = context := by
  simp [childrenIn, Spec.mem_children]

theorem nodup_keys_iff : ((query.childrenIn parent context).map keyOf).Nodup ↔
    ∀ one other : Segment, parent ++ [one] ∈ query.spec.closure →
      parent ++ [other] ∈ query.spec.closure → one.context = context → other.context = context →
        one.responseKey = other.responseKey → one = other := by
  have distinct : (query.childrenIn parent context).Nodup := (Spec.children_nodup parent).filter _
  rw [List.nodup_map_iff_inj_on distinct]
  constructor
  · intro apart one other selected selected' inContext inContext' same
    have equal := apart _ (mem_childrenIn.mpr ⟨selected, inContext⟩) _
      (mem_childrenIn.mpr ⟨selected', inContext'⟩) (by simpa [keyOf] using same)
    simpa using equal
  · intro apart chain member chain' member' same
    obtain ⟨-, one, rfl⟩ := Spec.mem_children.mp (List.mem_filter.mp member).1
    obtain ⟨-, other, rfl⟩ := Spec.mem_children.mp (List.mem_filter.mp member').1
    obtain ⟨selected, inContext⟩ := mem_childrenIn.mp member
    obtain ⟨selected', inContext'⟩ := mem_childrenIn.mp member'
    rw [apart one other selected selected' inContext inContext' (by simpa [keyOf] using same)]

inductive Lists (query : Query) : List Selection → Prop where
  | none : Lists query []
  | fields (parent : Chain) (context : Context) :
      Lists query ((query.childrenIn parent context).map query.field)
  | below (composite : Bool) (parent : Chain) :
      Lists query (Plan.orTypename composite (query.selections parent))

theorem lists_of_mem_nested_field (proper : chain ≠ []) {inner : Selection}
    (below : ∀ inner ∈ nestedIn (query.selections chain), query.Lists inner.selections)
    (occurs : inner ∈ (query.field chain).nested) : query.Lists inner.selections := by
  rcases mem_nested_field proper occurs with rfl | rfl | deeper
  · rw [field_eq proper]
    exact .below _ _
  · exact .none
  · exact below inner deeper

theorem lists_of_mem_nestedIn {inner : Selection}
    (occurs : inner ∈ nestedIn (query.selections parent)) : query.Lists inner.selections := by
  induction parent using Spec.upward_induction query.spec generalizing inner with
  | step parent ih =>
    obtain ⟨⟨context, chains⟩, member, ⟨wrapped, own⟩ | ⟨-, child, inside, occurs⟩⟩ :=
      mem_nestedIn_selections.mp occurs
    · cases context with
      | plain => exact absurd rfl wrapped
      | inline type =>
        rw [List.mem_singleton.mp own, (mem_groups.mp member).1]
        exact .fields parent (.inline type)
      | spread fragment type =>
        rw [List.mem_singleton.mp own]
        exact .none
    · have family := (mem_of_mem_group member inside).1
      have proper := Spec.ne_nil_of_mem_closure (Spec.mem_closure_of_mem_children family)
      exact lists_of_mem_nested_field proper (fun inner => ih child family) occurs

theorem Lists.keysDiffer {selections : List Selection} (lists : query.Lists selections)
    (apart : query.spec.KeysDiffer) : Selection.KeysDiffer selections := by
  have inOne (parent : Chain) (context : Context) :
      ((query.childrenIn parent context).map keyOf).Nodup :=
    nodup_keys_iff.mpr fun one other selected selected' inContext inContext' =>
      apart parent one other selected selected' (inContext.trans inContext'.symm)
  cases lists with
  | none => exact .nil
  | fields parent context =>
    rw [Selection.KeysDiffer, filterMap_responseKey?_fields]
    exact inOne parent context
  | below composite parent =>
    unfold Plan.orTypename
    split
    · exact List.nodup_singleton _
    · rw [Selection.KeysDiffer, filterMap_responseKey?_selections]
      exact inOne parent .plain

namespace Answers

variable {document : Document} (answers : query.Answers document)

include answers

theorem lists_of_mem {selections : List Selection}
    (member : selections ∈ document.selectionLists) : query.Lists selections := by
  rcases List.mem_append.mp member with top | inside
  · rcases List.mem_cons.mp top with rfl | ofFragment
    · rw [answers.selections]
      exact .below true []
    · obtain ⟨definition, known, rfl⟩ := List.mem_map.mp ofFragment
      obtain ⟨parent, defined⟩ := (answers.mem_fragments definition).mp known
      obtain ⟨chains, group, built⟩ := mem_definitions.mp defined
      rw [built, (mem_groups.mp group).1]
      exact .fields parent _
  · obtain ⟨selection, occurs, rfl⟩ := List.mem_map.mp inside
    rcases List.mem_append.mp occurs with inOperation | inFragments
    · rw [answers.selections] at inOperation
      rcases List.mem_cons.mp (Selection.nestedIn_orTypename_subset _ _ inOperation) with
        rfl | below
      · exact .none
      · exact lists_of_mem_nestedIn below
    · obtain ⟨definition, member, occurs⟩ := List.mem_flatMap.mp inFragments
      obtain ⟨parent, defined⟩ := (answers.mem_fragments definition).mp member
      obtain ⟨child, family, occurs⟩ := exists_child_of_mem_definition defined occurs
      have proper := Spec.ne_nil_of_mem_closure (Spec.mem_closure_of_mem_children family)
      exact lists_of_mem_nested_field proper (fun _ => lists_of_mem_nestedIn) occurs

theorem nestedIn_subset (tree : parent = [] ∨ parent ∈ query.spec.closure) :
    nestedIn (query.selections parent) ⊆ document.nested := by
  rcases tree with rfl | selected
  · refine fun inner occurs => List.mem_append_left _ ?_
    rw [answers.selections]
    exact Selection.subset_nestedIn_orTypename _ _ occurs
  · have below : nestedIn (query.selections parent) ⊆ (query.field parent).nested :=
      subset_nested_field (Spec.ne_nil_of_mem_closure selected)
    exact fun inner occurs => answers.nested_field_subset selected (below occurs)

theorem selections_mem (child : chain ∈ query.spec.children parent) :
    query.selections parent ∈ document.selectionLists := by
  have kept (composite : Bool) :
      Plan.orTypename composite (query.selections parent) = query.selections parent := by
    simp [Plan.orTypename, selections_ne_nil (List.ne_nil_of_mem child)]
  by_cases top : parent = []
  · subst top
    have own := answers.selections
    rw [kept] at own
    rw [← own]
    exact List.mem_cons_self
  · have occurs := answers.field_mem_nested (Spec.parent_mem_closure child top)
    have own : (query.field parent).selections = query.selections parent := by
      rw [field_eq top, Selection.selections, kept]
    rw [← own]
    exact List.mem_append_right _ (List.mem_map_of_mem occurs)

/-- The fields of siblings in one context are those of one list of the document. -/
theorem exists_list (child : chain ∈ query.spec.children parent) :
    ∃ selections ∈ document.selectionLists, selections.filterMap Selection.responseKey? =
      (query.childrenIn parent (Plan.contextOf chain)).map keyOf := by
  have inside := child
  rw [← flatMap_groups] at inside
  obtain ⟨⟨context, chains⟩, member, inside⟩ := List.mem_flatMap.mp inside
  have own : chains = query.childrenIn parent context := (mem_groups.mp member).1
  have keys := query.filterMap_responseKey?_fields chains
  rw [(mem_of_mem_group member inside).2, ← own]
  have tree : parent = [] ∨ parent ∈ query.spec.closure :=
    (em (parent = [])).imp_right (Spec.parent_mem_closure child)
  cases context with
  | plain =>
    refine ⟨_, answers.selections_mem child, ?_⟩
    rw [own]
    exact query.filterMap_responseKey?_selections parent
  | inline type =>
    have occurs : .inline type (chains.map query.field) ∈ nestedIn (query.selections parent) :=
      mem_nestedIn_selections.mpr
        ⟨_, member, .inl ⟨nofun, List.mem_singleton_self _⟩⟩
    refine ⟨_, ?_, keys⟩
    exact List.mem_append_right _ (List.mem_map_of_mem (answers.nestedIn_subset tree occurs))
  | spread fragment type =>
    have defined : ⟨fragment, type, chains.map query.field⟩ ∈ query.definitions parent :=
      mem_definitions.mpr ⟨chains, member, rfl⟩
    have known := (answers.mem_fragments _).mpr ⟨parent, defined⟩
    refine ⟨_, ?_, keys⟩
    exact List.mem_append_left _ (List.mem_cons_of_mem _ (List.mem_map_of_mem known))

theorem clashFree_iff : document.ClashFree ↔ query.spec.KeysDiffer := by
  constructor
  · intro free parent one other selected selected' alike
    have child : parent ++ [one] ∈ query.spec.children parent :=
      Spec.mem_children.mpr ⟨selected, one, rfl⟩
    obtain ⟨selections, member, keys⟩ := answers.exists_list child
    have differ := free selections member
    rw [Selection.KeysDiffer, keys, Plan.contextOf_concat] at differ
    exact nodup_keys_iff.mp differ one other selected selected' rfl alike.symm
  · intro apart selections member
    exact (answers.lists_of_mem member).keysDiffer apart

end Answers

end Query

/-- In a compiled document no list of selections has two fields with one response key, provided that
no two siblings in one context of the spec have one; nothing else keeps such fields apart. -/
theorem compile_clashFree_iff (query : Query) (document : Document)
    (compiled : compile query.view query.spec = .ok document) :
    document.ClashFree ↔ query.spec.KeysDiffer :=
  ((meets_compile query).of_ok compiled).clashFree_iff

theorem compile_clashFree_iff_plants :
    compile Sample.plants.view Sample.plants.spec = .ok Sample.plantsDocument ∧
      (Sample.plantsDocument.ClashFree ↔ Sample.plants.spec.KeysDiffer) :=
  ⟨Sample.compile_plants,
    compile_clashFree_iff Sample.plants Sample.plantsDocument Sample.compile_plants⟩

namespace Sample

def taxa : Query :=
  let taxon (field : Name) : Segment := ⟨.plain, field, some (.of "taxon")⟩
  .ofPaths {
    queryRoot? := some (.of "Herb")
    field? := fun _ field => some ⟨field, .named (.of "Latin") false, []⟩
    implementations := fun _ => ∅
    compositeType? := fun _ => none
    isEnum := fun _ => false
    inputFieldType? := fun _ _ => none
  } [.ofSelection [taxon (.of "genus")], .ofSelection [taxon (.of "species")]]

def taxaDocument : Document where
  variableDefinitions := []
  selections := [.field (some (.of "taxon")) (.of "genus") [] [],
    .field (some (.of "taxon")) (.of "species") [] []]
  fragmentDefinitions := []

end Sample

/-- Two fields of one type under one alias compile, though there is no answer with both. -/
theorem compile_taxa_clash :
    compile Sample.taxa.view Sample.taxa.spec = .ok Sample.taxaDocument ∧
      ¬ Sample.taxaDocument.ClashFree := by
  refine ⟨by decide +kernel, fun free => ?_⟩
  have differ := free Sample.taxaDocument.selections List.mem_cons_self
  revert differ
  unfold Selection.KeysDiffer
  decide +kernel

end PathQuery
