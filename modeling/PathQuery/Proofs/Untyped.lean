import PathQuery.Proofs.Agreement
import PathQuery.Proofs.Compile
import PathQuery.Proofs.Document.Erasure
import PathQuery.Proofs.Document.Nested

namespace PathQuery

open Std

def CompileError.IsFragmentConflict : CompileError → Prop
  | .fragmentConflict _ => True
  | .unresolvedField _ _ _ | .unboundArgument _ _ _ | .variableConflict _ _ _ | .invalidKey _ _
  | .noQueryRoot | .breach _ => False

namespace Plan

def untyped (plan : Plan) : Plan := { plan with view := plan.view.untyped }

theorem untyped_spec (plan : Plan) : plan.untyped.spec = plan.spec := rfl

theorem untyped_resolution (plan : Plan) : plan.untyped.resolution = plan.resolution := rfl

/-- Up to erasure the actions do the same, unless fragments conflict. -/
abbrev Erased {α β : Type} (related : α → β → Prop) (action : Assembler α)
    (other : Assembler β) : Prop :=
  Alongside CompileError.IsFragmentConflict Assembly.erase related action other

section Declarations

variable {definition definition' : VariableDefinition} {selections selections' : List Selection}

theorem erased_declare (argument : Path) (same : definition.erase = definition'.erase) :
    Erased (fun _ _ => True) (Assembly.declare argument definition)
      (Assembly.declare argument definition') := by
  refine (Alongside.of_run_map_eq id fun s t look => ?_).weaken fun _ _ _ => trivial
  rw [← Assembly.run_declare_erase, ← Assembly.run_declare_erase, same, look]

theorem erased_take (parent : Chain) :
    Erased (fun a b => Selection.eraseAll a = Selection.eraseAll b) (Assembly.take parent)
      (Assembly.take parent) := by
  refine Alongside.of_run_map_eq _ fun s t look => ?_
  rw [← Assembly.run_take_erase, ← Assembly.run_take_erase, look]

theorem erased_leave (level : Nat) (parent : Chain)
    (same : Selection.eraseAll selections = Selection.eraseAll selections') :
    Erased (fun _ _ => True) (Assembly.leave level parent selections)
      (Assembly.leave level parent selections') := by
  refine (Alongside.of_run_map_eq id fun s t look => ?_).weaken fun _ _ _ => trivial
  rw [← Assembly.run_leave_erase, ← Assembly.run_leave_erase, same, look]

end Declarations

/-- Definitions that are alike up to erasure may be the same on one side alone. -/
theorem agree_define {table table' : Fragments} {definition definition' : FragmentDefinition}
    (look : table.erase = table'.erase) (same : definition.erase = definition'.erase) :
    Agree CompileError.IsFragmentConflict
      (fun a b => Fragments.erase a = Fragments.erase b)
      (table.define definition) (table'.define definition') := by
  have name : definition.name = definition'.name := congrArg (fun erased => erased.name) same
  have found : table[definition.name]?.map FragmentDefinition.erase =
      table'[definition'.name]?.map FragmentDefinition.erase := by
    rw [← Fragments.getElem?_erase, ← Fragments.getElem?_erase, look, name]
  unfold Fragments.define
  cases here : table[definition.name]? with
  | none =>
    rw [here, Option.map_none, eq_comm, Option.map_eq_none_iff] at found
    rw [found]
    show Fragments.erase _ = Fragments.erase _
    rw [Fragments.erase_insert, Fragments.erase_insert, look, same, name]
  | some existing =>
    rw [here, Option.map_some, eq_comm, Option.map_eq_some_iff] at found
    obtain ⟨existing', there, _⟩ := found
    rw [there]
    dsimp only
    split <;> split
    · exact look
    · exact trivial
    · exact trivial
    · exact .inl (by rw [name])

theorem erased_define {definition definition' : FragmentDefinition}
    (same : definition.erase = definition'.erase) :
    Erased (fun _ _ => True) (Assembly.define definition) (Assembly.define definition') := by
  intro s t look
  obtain ⟨waits, declared, defined⟩ := Assembly.mk.inj look
  rw [Assembly.run_define, Assembly.run_define]
  refine ((agree_define defined same).weaken fun table table' defined => ?_).map
  exact ⟨trivial, Assembly.mk.injEq .. ▸ ⟨waits, declared, defined⟩⟩

variable (plan : Plan)

theorem explicitValue?_untyped (argument : Path) (type : TypeRef) :
    plan.untyped.explicitValue? argument type =
      Option.map Value.erase <$> plan.explicitValue? argument type := by
  unfold explicitValue? untyped
  dsimp only
  cases plan.spec.defaultFor? argument with
  | none => rfl
  | some literal =>
    dsimp only
    rw [Literal.toValue_untyped (some type)]
    cases literal.toValue plan.view (some type) <;> rfl

theorem agree_fallback (argument : Path) (input : InputDefinition) (explicit? : Option Value) :
    Agree CompileError.IsFragmentConflict (fun a b => Value.erase a = Value.erase b)
      (fallback argument input explicit?)
      (fallback argument input (explicit?.map Value.erase)) := by
  apply Agree.of_map_eq
  unfold fallback
  cases explicit? with
  | some value => exact congrArg Except.ok (Value.erase_erase value).symm
  | none => rfl

theorem erased_argument (chain : Chain) (input : InputDefinition) :
    Erased (fun a b => Value.eraseMember a = Value.eraseMember b) (plan.argument chain input)
      (plan.untyped.argument chain input) := by
  unfold argument
  dsimp only
  rw [explicitValue?_untyped]
  apply (Alongside.lift (Agree.map_self _ (Option.map Value.erase))).bind
  intro explicit? _ erased
  subst erased
  rw [untyped_spec]
  cases plan.spec.variableFor? ((Path.ofSelection chain).argumentPath input.name) with
  | some name =>
    have same : VariableDefinition.erase ⟨name, input.type, explicit?⟩ =
        VariableDefinition.erase ⟨name, input.type, explicit?.map Value.erase⟩ := by
      cases explicit? <;> simp [VariableDefinition.erase, Value.erase_erase]
    apply (erased_declare _ same).bind
    intro _ _ _
    exact Alongside.pure rfl
  | none =>
    apply (Alongside.lift (agree_fallback _ input explicit?)).bind
    intro value value' same
    exact Alongside.pure (congrArg (Prod.mk input.name) same)

theorem erased_field (chain : Chain) :
    Erased (fun a b => Selection.erase a = Selection.erase b) (plan.field chain)
      (plan.untyped.field chain) := by
  unfold field
  rw [untyped_resolution]
  cases chain.getLast? with
  | none => exact Alongside.throw _
  | some segment =>
    cases plan.resolution[chain]? with
    | none => exact Alongside.throw _
    | some resolved =>
      apply (Alongside.mapM fun input _ => plan.erased_argument chain input).bind
      intro arguments arguments' sameArguments
      apply (erased_take chain).bind
      intro selections selections' sameSelections
      apply Alongside.pure
      rw [Selection.erase, Selection.erase, Value.eraseMembers_eq_map, Value.eraseMembers_eq_map,
        sameArguments, Selection.eraseAll_orTypename, Selection.eraseAll_orTypename,
        sameSelections]

theorem erased_group (context : Context) (chains : List Chain) :
    Erased (fun a b => Selection.eraseAll a = Selection.eraseAll b) (plan.group context chains)
      (plan.untyped.group context chains) := by
  apply (Alongside.mapM fun chain _ => plan.erased_field chain).bind
  intro fields fields' same
  rw [← Selection.eraseAll_eq_map, ← Selection.eraseAll_eq_map] at same
  cases context with
  | plain => exact Alongside.pure same
  | inline type =>
    apply Alongside.pure
    simp only [Selection.eraseAll, Selection.erase, same]
  | spread fragment type =>
    have definitions : FragmentDefinition.erase ⟨fragment, type, fields⟩ =
        FragmentDefinition.erase ⟨fragment, type, fields'⟩ :=
      congrArg (FragmentDefinition.mk fragment type) same
    apply (erased_define definitions).bind
    intro _ _ _
    exact Alongside.pure rfl

theorem erased_siblings (chains : List Chain) :
    Erased (fun a b => Selection.eraseAll a = Selection.eraseAll b) (plan.siblings chains)
      (plan.untyped.siblings chains) := by
  apply (Alongside.mapM fun run _ => plan.erased_group run.1 run.2).bind
  intro groups groups' same
  apply Alongside.pure
  rw [Selection.eraseAll_flatten, Selection.eraseAll_flatten, same]

theorem erased_level (level : Nat × ChainSet) :
    Erased (fun _ _ => True) (plan.level level) (plan.untyped.level level) := by
  apply Alongside.forM
  intro run _
  unfold children
  cases run.1 with
  | none => exact Alongside.throw _
  | some parent =>
    apply (plan.erased_siblings run.2).bind
    intro selections selections' same
    exact erased_leave level.1 parent same

end Plan

namespace Query

variable (query : Query)

def untyped : Query := { query with view := query.view.untyped }

theorem agree_assembleLevels (resolution : Resolution) (levels : List (Nat × ChainSet)) :
    Agree CompileError.IsFragmentConflict (fun a b => Assembly.erase a = Assembly.erase b)
      (query.assembleLevels resolution levels)
      (query.untyped.assembleLevels resolution levels) := by
  apply Agree.foldlM _ rfl
  intro level _ assembly assembly' look
  apply Agree.map
  have along := Plan.erased_level ⟨query.view, query.spec, resolution⟩ level assembly assembly' look
  exact along.weaken fun _ _ both => both.2

theorem agree_compile :
    Agree CompileError.IsFragmentConflict (fun a b => Document.erase a = Document.erase b)
      (compile query.view query.spec) (compile query.view.untyped query.spec) := by
  cases rooted : query.view.queryRoot? with
  | none =>
    have untyped : compile query.view.untyped query.spec = _ :=
      @compile_of_not_rooted query.untyped rooted
    rw [compile_of_not_rooted rooted, untyped]
    exact .inl rfl
  | some root =>
    have untyped : compile query.view.untyped query.spec = _ :=
      @compile_of_rooted query.untyped root rooted
    have resolves : query.untyped.resolveLevels root query.untyped.levels.ascending =
        query.resolveLevels root query.levels.ascending := rfl
    rw [resolves] at untyped
    rw [compile_of_rooted rooted, untyped]
    apply (Agree.refl _).bind
    intro resolution _ same
    subst same
    apply (query.agree_assembleLevels resolution query.levels.descending).bind
    intro assembly assembly' look
    apply Agree.of_map_eq
    rw [← Assembly.document_erase, ← Assembly.document_erase, look]

/-- No selection is in a fragment of its own. -/
def SpreadFree : Prop :=
  ∀ path ∈ query.spec.fields, ∀ segment ∈ path.selection, segment.context.fragment? = none

variable {query}

theorem SpreadFree.definitions_eq_nil (free : query.SpreadFree) (parent : Chain) :
    query.definitions parent = [] := by
  refine List.eq_nil_iff_forall_not_mem.mpr fun definition defined => ?_
  obtain ⟨chains, member, _⟩ := mem_definitions.mp defined
  obtain ⟨chain, inside⟩ := List.exists_mem_of_ne_nil _ (mem_groups.mp member).2
  obtain ⟨child, context⟩ := mem_of_mem_group member inside
  obtain ⟨selected, segment, rfl⟩ := Spec.mem_children.mp child
  obtain ⟨_, path, listed, _, above⟩ := Spec.mem_closure.mp selected
  rw [Plan.contextOf_concat] at context
  have none := free path listed segment (above.subset (by simp))
  rw [context] at none
  cases none

theorem SpreadFree.not_isFragmentConflict (free : query.SpreadFree) {error : CompileError}
    (failed : compile query.view query.spec = .error error) : ¬ error.IsFragmentConflict := by
  have violates := (meets_compile query).of_error failed
  intro conflict
  cases error with
  | fragmentConflict fragment =>
    obtain ⟨parent, _, definition, defined, _⟩ := violates
    rw [free.definitions_eq_nil] at defined
    cases defined
  | _ => exact conflict

end Query

/-- Knowledge of enums and input objects turns some strings into enum values and does nothing else:
two documents differ in that at most, and so does each explicit value. As long as no fragments are
defined, it makes no difference to whether a spec compiles, or to why it does not. -/
theorem compile_types_only_enums (query : Query) :
    (∀ document other, compile query.view query.spec = .ok document →
      compile query.view.untyped query.spec = .ok other → document.erase = other.erase) ∧
    ((∀ path ∈ query.spec.fields, ∀ segment ∈ path.selection, segment.context.fragment? = none) →
      ((∃ document, compile query.view query.spec = .ok document) ↔
        ∃ document, compile query.view.untyped query.spec = .ok document) ∧
      ∀ error, compile query.view query.spec = .error error ↔
        compile query.view.untyped query.spec = .error error) ∧
    ∀ (type? : Option TypeRef) (literal : Literal),
      literal.toValue query.view.untyped type? =
        Value.erase <$> literal.toValue query.view type? := by
  have agree := query.agree_compile
  refine ⟨fun document other here there => ?_, fun free => ?_, fun type? literal => ?_⟩
  · rw [here, there] at agree
    exact agree
  · have typed : ∀ error, compile query.view query.spec = .error error →
        ¬ error.IsFragmentConflict :=
      fun error failed => Query.SpreadFree.not_isFragmentConflict free failed
    have untyped : ∀ error, compile query.view.untyped query.spec = .error error →
        ¬ error.IsFragmentConflict :=
      fun error failed => @Query.SpreadFree.not_isFragmentConflict query.untyped free error failed
    cases here : compile query.view query.spec with
    | ok document =>
      cases there : compile query.view.untyped query.spec with
      | ok other => simp
      | error error =>
        rw [here, there] at agree
        exact absurd agree (untyped error there)
    | error error =>
      cases there : compile query.view.untyped query.spec with
      | ok other =>
        rw [here, there] at agree
        exact absurd agree (typed error here)
      | error error' =>
        rw [here, there] at agree
        have same : error = error' :=
          agree.resolve_right fun either => either.elim (typed error here) (untyped error' there)
        simp [same]
  · exact Literal.toValue_untyped type? type? literal

namespace Sample

def wall (colour : Literal) : Query where
  view := {
    queryRoot? := some (.of "House")
    field? := fun _ field =>
      some ⟨field, .named (.of "Wall") false, [⟨.of "paint", .named (.of "Paint") true, none⟩]⟩
    implementations := fun _ => ∅
    compositeType? := fun _ => none
    isEnum := fun type => type = .of "Colour"
    inputFieldType? := fun input field =>
      if input = .of "Paint" ∧ field = .of "tint" then some (.named (.of "Colour") false) else none
  }
  spec :=
    let wall : Path := .ofFields [.of "wall"]
    (Spec.empty.update [.select wall,
      .setDefault (wall.argumentPath (.of "paint")) (.object [("tint", colour)])]).toOption.getD
        .empty

def wallDocument (colour : Value) : Document where
  variableDefinitions := []
  selections := [
    .field none (.of "wall") [(.of "paint", .object [(.of "tint", colour)])] []]
  fragmentDefinitions := []

end Sample

theorem compile_types_only_enums_wall :
    let query := Sample.wall (.string "RED")
    let document := Sample.wallDocument (.enum (.of "RED"))
    let other := Sample.wallDocument (.string "RED")
    compile query.view query.spec = .ok document ∧
      compile query.view.untyped query.spec = .ok other ∧ document ≠ other ∧
      document.erase = other.erase ∧
      (∀ path ∈ query.spec.fields, ∀ segment ∈ path.selection,
        segment.context.fragment? = none) ∧
      ∀ error, compile query.view query.spec = .error error ↔
        compile query.view.untyped query.spec = .error error := by
  intro query document other
  have typed : compile query.view query.spec = .ok document := by decide +kernel
  have untyped : compile query.view.untyped query.spec = .ok other := by decide +kernel
  have free : ∀ path ∈ query.spec.fields, ∀ segment ∈ path.selection,
      segment.context.fragment? = none := by
    have listed : ∀ path ∈ query.spec.fields.toList, ∀ segment ∈ path.selection,
        segment.context.fragment? = none := by
      decide +kernel
    exact fun path member => listed path (ExtTreeSet.mem_toList.mpr member)
  obtain ⟨same, alike, _⟩ := compile_types_only_enums query
  exact ⟨typed, untyped, by decide +kernel, same document other typed untyped, free,
    (alike free).2⟩

end PathQuery
