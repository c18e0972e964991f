import PathQuery.Assembly
import PathQuery.Proofs.Outcome
import PathQuery.Proofs.Query.Conditions

namespace PathQuery

open Std

theorem filterMap_singleton {α β : Type} (f : α → Option β) (a : α) :
    [a].filterMap f = (f a).toList := by
  cases found : f a <;> simp [found]

/-- What has been done at some point of assembling. -/
structure Progress where
  fields : List Chain
  parents : List Chain
  declared : List Declaration
  defined : List FragmentDefinition

structure Assembly.Reflects (query : Query) (progress : Progress) (assembly : Assembly) : Prop where
  waiting : ∀ parent : Chain, assembly.waiting[parent]? =
    if parent ∈ progress.parents ∧ parent ∉ progress.fields then some (query.selections parent)
    else none
  variables_hold : assembly.variableTable.Holds progress.declared
  fragments_hold : assembly.fragmentTable.Holds progress.defined
  declares : ∀ declaration ∈ progress.declared, query.Declares declaration
  defines : ∀ definition ∈ progress.defined, ∃ parent, definition ∈ query.definitions parent
  bound : ∀ chain ∈ progress.fields, ∀ input ∈ query.inputs chain, query.Bindable chain input

namespace Assembly

variable {query : Query} {progress : Progress} {assembly : Assembly}

theorem reflects_empty (query : Query) : empty.Reflects query ⟨[], [], [], []⟩ where
  waiting parent := by simp [empty]
  variables_hold := Variables.holds_empty
  fragments_hold := Fragments.holds_empty
  declares _ none := by cases none
  defines _ none := by cases none
  bound _ none := by cases none

theorem Reflects.meets_declare (reflects : assembly.Reflects query progress)
    {declaration : Declaration} (declares : query.Declares declaration) :
    Meets query.Violates
      (fun out => out.2.Reflects query
        { progress with declared := progress.declared ++ [declaration] })
      ((declare declaration.1 declaration.2).run assembly) := by
  have each : ∀ other ∈ progress.declared ++ [declaration], query.Declares other :=
    List.forall_mem_append.mpr ⟨reflects.declares, List.forall_mem_singleton.mpr declares⟩
  have faults : ∀ error, Variables.Conflict (progress.declared ++ [declaration]) error →
      query.Violates error := by
    intro _ conflict
    obtain ⟨first, one, second, other, same, different, below, rfl⟩ := conflict
    exact ⟨different, first, second, each first one, each second other, below, rfl, same.symm,
      rfl, rfl⟩
  have kept := (reflects.variables_hold.meets_declare declaration).weaken faults
    fun _ holds => holds
  refine Meets.run_get_bind (kept.run_lift_bind fun table holds => ?_)
  exact { reflects with variables_hold := holds, declares := each }

theorem Reflects.meets_define (reflects : assembly.Reflects query progress)
    {definition : FragmentDefinition} {parent : Chain}
    (defines : definition ∈ query.definitions parent) :
    Meets query.Violates
      (fun out => out.2.Reflects query
        { progress with defined := progress.defined ++ [definition] })
      ((define definition).run assembly) := by
  have each : ∀ other ∈ progress.defined ++ [definition],
      ∃ parent, other ∈ query.definitions parent :=
    List.forall_mem_append.mpr
      ⟨reflects.defines, List.forall_mem_singleton.mpr ⟨parent, defines⟩⟩
  have faults : ∀ error, Fragments.Conflict (progress.defined ++ [definition]) error →
      query.Violates error := by
    intro _ conflict
    obtain ⟨first, one, second, other, same, different, rfl⟩ := conflict
    obtain ⟨parent, one⟩ := each first one
    obtain ⟨parent', other⟩ := each second other
    exact ⟨parent, parent', first, one, second, other, rfl, same.symm, different⟩
  have kept := (reflects.fragments_hold.meets_define definition).weaken faults fun _ holds => holds
  refine Meets.run_get_bind (kept.run_lift_bind fun table holds => ?_)
  exact { reflects with fragments_hold := holds, defines := each }

theorem Reflects.meets_take (reflects : assembly.Reflects query progress) {parent : Chain}
    (served : query.spec.children parent = [] ∨ parent ∈ progress.parents)
    (unbuilt : parent ∉ progress.fields)
    (bound : ∀ input ∈ query.inputs parent, query.Bindable parent input) :
    Meets query.Violates
      (fun out => out.1 = query.selections parent ∧
        out.2.Reflects query { progress with fields := progress.fields ++ [parent] })
      ((take parent).run assembly) := by
  have waits : assembly.waiting.getD parent [] = query.selections parent := by
    rw [ExtTreeMap.getD_eq_getD_getElem?, reflects.waiting]
    by_cases there : parent ∈ progress.parents
    · rw [if_pos ⟨there, unbuilt⟩, Option.getD_some]
    · rw [if_neg fun both => there both.1, Option.getD_none]
      exact (Query.selections_eq_nil (served.resolve_right there)).symm
  have each : ∀ chain ∈ progress.fields ++ [parent], ∀ input ∈ query.inputs chain,
      query.Bindable chain input :=
    List.forall_mem_append.mpr ⟨reflects.bound, List.forall_mem_singleton.mpr bound⟩
  refine ⟨waits, { reflects with waiting := fun other => ?_, bound := each }⟩
  dsimp only
  rw [ExtTreeMap.getElem?_erase, reflects.waiting]
  by_cases same : parent = other
  · simp [same]
  · simp [same, Ne.symm same]

theorem Reflects.meets_leave (reflects : assembly.Reflects query progress) {parent : Chain}
    (unserved : parent ∉ progress.parents) (unbuilt : parent ∉ progress.fields) (level : Nat) :
    Meets query.Violates
      (fun out => out.2.Reflects query { progress with parents := progress.parents ++ [parent] })
      ((leave level parent (query.selections parent)).run assembly) := by
  have free : assembly.waiting.contains parent = false := by
    rw [ExtTreeMap.contains_eq_isSome_getElem?, reflects.waiting,
      if_neg fun both => unserved both.1]
    rfl
  refine Meets.run_get_bind ?_
  rw [free, if_neg Bool.false_ne_true]
  refine { reflects with waiting := fun other => ?_ }
  dsimp only
  rw [ExtTreeMap.getElem?_insert, reflects.waiting]
  by_cases same : parent = other
  · subst same
    simp [unbuilt]
  · simp [same, Ne.symm same]

end Assembly

namespace Plan

variable {query : Query} {resolution : Resolution} {progress : Progress} {assembly : Assembly}

theorem meets_explicitValue? {chain : Chain} (selected : chain ∈ query.spec.closure)
    {input : InputDefinition} (declared : input ∈ query.inputs chain) :
    Meets query.Violates
      (fun explicit? => explicit? = query.explicit? (Query.argumentAt chain input) input.type ∧
        ∀ literal, query.spec.defaultFor? (Query.argumentAt chain input) = some literal →
          ∃ value, literal.toValue query.view (some input.type) = .ok value)
      (explicitValue? ⟨query.view, query.spec, resolution⟩ (Query.argumentAt chain input)
        input.type) := by
  unfold explicitValue? Query.explicit?
  dsimp only
  cases given : query.spec.defaultFor? (Query.argumentAt chain input) with
  | none => exact ⟨rfl, fun literal given => by cases given⟩
  | some literal =>
    dsimp only
    cases converted : literal.toValue query.view (some input.type) with
    | ok value =>
      refine ⟨?_, fun other same => ⟨value, ?_⟩⟩
      · simp [converted, Except.toOption]
      · cases same
        exact converted
    | error key => exact ⟨chain, selected, input, declared, rfl, literal, given, converted⟩

theorem meets_fallback {chain : Chain} (selected : chain ∈ query.spec.closure)
    {input : InputDefinition} (declared : input ∈ query.inputs chain)
    (unfed : query.spec.variableFor? (Query.argumentAt chain input) = none) :
    Meets query.Violates (fun value => query.value? chain input = some value)
      (fallback (Query.argumentAt chain input) input
        (query.explicit? (Query.argumentAt chain input) input.type)) := by
  unfold fallback
  have known : query.value? chain input =
      ((query.explicit? (Query.argumentAt chain input) input.type <|> input.default?) <|>
        (if input.type.isList then some (.list []) else none) <|>
        (if input.type.isRequired then none else some .null)) := by
    simp [Query.value?, unfed, Option.or_assoc]
  cases given : query.explicit? (Query.argumentAt chain input) input.type <|> input.default? with
  | some value =>
    rw [given] at known
    exact known
  | none =>
    rw [given] at known
    by_cases list : input.type.isList = true
    · rw [if_pos list] at known ⊢
      exact known
    · rw [if_neg list] at known ⊢
      by_cases required : input.type.isRequired = true
      · rw [if_pos required] at known ⊢
        exact ⟨chain, selected, input, declared, rfl, rfl, rfl, known⟩
      · rw [if_neg required] at known ⊢
        exact known

theorem meets_argument (reflects : assembly.Reflects query progress) {chain : Chain}
    (selected : chain ∈ query.spec.closure) {input : InputDefinition}
    (declared : input ∈ query.inputs chain) :
    Meets query.Violates
      (fun out => out.1 = (input.name, query.passed chain input) ∧
        query.Bindable chain input ∧ out.2.Reflects query
          { progress with
            declared := progress.declared ++ (query.declaration? chain input).toList })
      ((argument ⟨query.view, query.spec, resolution⟩ chain input).run assembly) := by
  unfold argument
  refine (meets_explicitValue? selected declared).run_lift_bind ?_
  intro _ explicit
  obtain ⟨rfl, converts⟩ := explicit
  rw [← Query.argumentAt]
  cases fed : query.spec.variableFor? (Query.argumentAt chain input) with
  | some name =>
    have declaration : query.declaration? chain input = some (Query.argumentAt chain input,
        ⟨name, input.type, query.explicit? (Query.argumentAt chain input) input.type⟩) := by
      simp [Query.declaration?, fed]
    have declares := reflects.meets_declare
      ⟨chain, selected, Query.mem_declarations.mpr ⟨input, declared, declaration⟩⟩
    apply declares.run_bind
    intro _ after reflects
    refine ⟨?_, ⟨converts, .inl (by rw [fed]; rfl)⟩, ?_⟩
    · simp [Query.passed, Query.value?, fed]
    · rw [declaration]
      exact reflects
  | none =>
    apply (meets_fallback selected declared fed).run_lift_bind
    intro value known
    have available := (Query.value?_isSome_iff converts).mp (by rw [known]; rfl)
    refine ⟨by rw [Query.passed, known]; rfl, ⟨converts, available⟩, ?_⟩
    · have : query.declaration? chain input = none := by simp [Query.declaration?, fed]
      rw [this, Option.toList_none, List.append_nil]
      exact reflects

theorem meets_arguments (reflects : assembly.Reflects query progress) {chain : Chain}
    (selected : chain ∈ query.spec.closure) :
    Meets query.Violates
      (fun out => out.1 = query.arguments chain ∧
        (∀ input ∈ query.inputs chain, query.Bindable chain input) ∧ out.2.Reflects query
          { progress with declared := progress.declared ++ query.declarations chain })
      (((query.inputs chain).mapM (argument ⟨query.view, query.spec, resolution⟩ chain)).run
        assembly) := by
  refine Meets.run_mapM _
    (fun done state => (∀ input ∈ done, query.Bindable chain input) ∧ Assembly.Reflects query
      { progress with
        declared := progress.declared ++ done.filterMap (query.declaration? chain) } state)
    ⟨by simp, by simpa using reflects⟩ fun done input rest state split sofar => ?_
  obtain ⟨bound, reflects⟩ := sofar
  have declared : input ∈ query.inputs chain := by simp [split]
  apply (meets_argument reflects selected declared).imp
  intro out result
  obtain ⟨value, bindable, reflects⟩ := result
  refine ⟨value, ?_, ?_⟩
  · exact List.forall_mem_append.mpr ⟨bound, List.forall_mem_singleton.mpr bindable⟩
  · rw [List.filterMap_append, filterMap_singleton, ← List.append_assoc]
    exact reflects

structure Ready (query : Query) (resolution : Resolution) (parents : List Chain) (chain : Chain) :
    Prop where
  selected : chain ∈ query.spec.closure
  found : resolution[chain]? = query.resolve? chain
  resolved : (query.resolve? chain).isSome = true
  served : query.spec.children chain = [] ∨ chain ∈ parents

theorem meets_field (reflects : assembly.Reflects query progress) {chain : Chain}
    (ready : Ready query resolution progress.parents chain) (unbuilt : chain ∉ progress.fields) :
    Meets query.Violates
      (fun out => out.1 = query.field chain ∧ out.2.Reflects query
        { progress with
          fields := progress.fields ++ [chain]
          declared := progress.declared ++ query.declarations chain })
      ((field ⟨query.view, query.spec, resolution⟩ chain).run assembly) := by
  have last := List.getLast?_eq_some_getLast (Spec.ne_nil_of_mem_closure ready.selected)
  generalize chain.getLast _ = segment at last
  obtain ⟨resolvedField, resolves⟩ := Option.isSome_iff_exists.mp ready.resolved
  unfold field
  rw [last, ready.found, resolves]
  have inputs : argumentsInOrder resolvedField.definition = query.inputs chain := by
    simp [Query.inputs, resolves]
  have composite : resolvedField.composite?.isSome = query.isComposite chain := by
    simp [Query.isComposite, resolves]
  dsimp only
  rw [inputs]
  refine (meets_arguments reflects ready.selected).run_bind ?_
  intro _ state result
  obtain ⟨rfl, bound, reflects⟩ := result
  refine (reflects.meets_take ready.served unbuilt bound).run_bind ?_
  intro _ state result
  obtain ⟨rfl, reflects⟩ := result
  refine ⟨?_, reflects⟩
  rw [composite]
  simp [Query.field, Query.node, last]

theorem meets_fields (reflects : assembly.Reflects query progress) {chains : List Chain}
    (ready : ∀ chain ∈ chains, Ready query resolution progress.parents chain)
    (unbuilt : (progress.fields ++ chains).Nodup) :
    Meets query.Violates
      (fun out => out.1 = chains.map query.field ∧ out.2.Reflects query
        { progress with
          fields := progress.fields ++ chains
          declared := progress.declared ++ chains.flatMap query.declarations })
      ((chains.mapM (field ⟨query.view, query.spec, resolution⟩)).run assembly) := by
  refine Meets.run_mapM _
    (fun done => Assembly.Reflects query { progress with
      fields := progress.fields ++ done
      declared := progress.declared ++ done.flatMap query.declarations })
    (by simpa using reflects) fun done chain rest state split reflects => ?_
  have fresh : chain ∉ progress.fields ++ done := by
    rw [split, ← List.append_assoc] at unbuilt
    exact fun member => (List.nodup_append.mp unbuilt).2.2 chain member chain (by simp) rfl
  apply (meets_field reflects (ready chain (by simp [split])) fresh).imp
  intro out result
  simpa using result

theorem meets_group (reflects : assembly.Reflects query progress) {parent : Chain}
    {group : Context × List Chain} (member : group ∈ query.groups parent)
    (ready : ∀ chain ∈ group.2, Ready query resolution progress.parents chain)
    (unbuilt : (progress.fields ++ group.2).Nodup) :
    Meets query.Violates
      (fun out => out.1 = group.1.wrap (group.2.map query.field) ∧ out.2.Reflects query
        { progress with
          fields := progress.fields ++ group.2
          declared := progress.declared ++ group.2.flatMap query.declarations
          defined := progress.defined ++ (query.definition? group).toList })
      ((Plan.group ⟨query.view, query.spec, resolution⟩ group.1 group.2).run assembly) := by
  obtain ⟨context, chains⟩ := group
  refine (meets_fields reflects ready unbuilt).run_bind ?_
  intro _ state result
  obtain ⟨rfl, reflects⟩ := result
  cases context with
  | plain => exact ⟨rfl, by simpa [Query.definition?] using reflects⟩
  | inline type => exact ⟨rfl, by simpa [Query.definition?] using reflects⟩
  | spread fragment type =>
    have defines : ⟨fragment, type, chains.map query.field⟩ ∈ query.definitions parent :=
      List.mem_filterMap.mpr ⟨_, member, rfl⟩
    apply (reflects.meets_define defines).run_bind
    intro _ state reflects
    exact ⟨rfl, reflects⟩

theorem meets_groups (reflects : assembly.Reflects query progress) {parent : Chain}
    (ready : ∀ chain ∈ query.spec.children parent, Ready query resolution progress.parents chain)
    (unbuilt : (progress.fields ++ query.spec.children parent).Nodup) :
    Meets query.Violates
      (fun out => out.1 = (query.groups parent).map (fun group =>
          group.1.wrap (group.2.map query.field)) ∧ out.2.Reflects query
        { progress with
          fields := progress.fields ++ query.spec.children parent
          declared := progress.declared ++ (query.spec.children parent).flatMap query.declarations
          defined := progress.defined ++ query.definitions parent })
      (((query.groups parent).mapM fun run =>
        Plan.group ⟨query.view, query.spec, resolution⟩ run.1 run.2).run assembly) := by
  have whole := Query.flatMap_groups query parent
  rw [← whole]
  refine Meets.run_mapM _
    (fun done => Assembly.Reflects query { progress with
      fields := progress.fields ++ done.flatMap Prod.snd
      declared := progress.declared ++ (done.flatMap Prod.snd).flatMap query.declarations
      defined := progress.defined ++ done.filterMap query.definition? })
    (by simpa using reflects) fun done group rest state split reflects => ?_
  have member : group ∈ query.groups parent := by simp [split]
  have fresh : ((progress.fields ++ done.flatMap Prod.snd) ++ group.2).Nodup := by
    rw [← whole, split, List.flatMap_append, List.flatMap_cons, ← List.append_assoc,
      ← List.append_assoc] at unbuilt
    exact (List.nodup_append.mp unbuilt).1
  refine (meets_group reflects member
    (fun chain inside => ready chain (Query.mem_of_mem_group member inside).1) fresh).imp
      fun out result => ?_
  rw [List.filterMap_append, filterMap_singleton]
  simpa using result

/-- It is the parent's turn: all its children can be built, and neither it nor they have been. -/
structure Due (query : Query) (resolution : Resolution) (progress : Progress) (parent : Chain) :
    Prop where
  ready : ∀ chain ∈ query.spec.children parent, Ready query resolution progress.parents chain
  children_unbuilt : (progress.fields ++ query.spec.children parent).Nodup
  unbuilt : parent ∉ progress.fields
  unserved : parent ∉ progress.parents

theorem meets_siblings (reflects : assembly.Reflects query progress) {parent : Chain}
    (due : Due query resolution progress parent) :
    Meets query.Violates
      (fun out => out.1 = query.selections parent ∧ out.2.Reflects query
        { progress with
          fields := progress.fields ++ query.spec.children parent
          declared := progress.declared ++ (query.spec.children parent).flatMap query.declarations
          defined := progress.defined ++ query.definitions parent })
      ((siblings ⟨query.view, query.spec, resolution⟩ (query.spec.children parent)).run
        assembly) := by
  refine (meets_groups reflects due.ready due.children_unbuilt).run_bind ?_
  intro _ state result
  obtain ⟨rfl, reflects⟩ := result
  refine ⟨?_, reflects⟩
  rw [Query.selections_eq, List.flatMap_def]

theorem meets_children (reflects : assembly.Reflects query progress) {parent : Chain}
    (due : Due query resolution progress parent) (level : Nat) :
    Meets query.Violates
      (fun out => out.2.Reflects query
        { fields := progress.fields ++ query.spec.children parent
          parents := progress.parents ++ [parent]
          declared := progress.declared ++ (query.spec.children parent).flatMap query.declarations
          defined := progress.defined ++ query.definitions parent })
      ((children ⟨query.view, query.spec, resolution⟩ level (some parent)
        (query.spec.children parent)).run assembly) := by
  refine (meets_siblings reflects due).run_bind ?_
  intro _ state result
  obtain ⟨rfl, reflects⟩ := result
  have notChild : parent ∉ progress.fields ++ query.spec.children parent := by
    rw [List.mem_append]
    intro either
    rcases either with built | child
    · exact due.unbuilt built
    · have := Spec.length_of_mem_children child
      omega
  exact reflects.meets_leave due.unserved notChild level

end Plan

end PathQuery
