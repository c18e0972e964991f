import PathQuery.Assembly
import PathQuery.Proofs.Literal.Erasure

namespace PathQuery

open Std

section Maps

variable {κ α β : Type} [Ord κ] [TransOrd κ] (f : κ → α → β) (table : ExtTreeMap κ α compare)

theorem map_erase [LawfulEqOrd κ] (key : κ) :
    (table.erase key).map f = (table.map f).erase key := by
  refine ExtTreeMap.ext_getElem? fun other => ?_
  simp only [ExtTreeMap.getElem?_map, ExtTreeMap.getElem?_erase]
  split <;> rfl

theorem isEmpty_map : (table.map f).isEmpty = table.isEmpty := by
  rw [Bool.eq_iff_iff, ExtTreeMap.isEmpty_iff, ExtTreeMap.isEmpty_iff, ExtTreeMap.map_eq_empty_iff]

end Maps

namespace Selection

mutual

def erase : Selection → Selection
  | field alias? name arguments selections =>
    field alias? name (Value.eraseMembers arguments) (eraseAll selections)
  | inline type selections => inline type (eraseAll selections)
  | spread fragment => spread fragment

def eraseAll : List Selection → List Selection
  | [] => []
  | selection :: rest => erase selection :: eraseAll rest

end

theorem eraseAll_eq_map (selections : List Selection) :
    eraseAll selections = selections.map erase := by
  induction selections with
  | nil => rfl
  | cons selection rest ih => rw [eraseAll, ih, List.map_cons]

theorem eraseAll_flatten (groups : List (List Selection)) :
    eraseAll groups.flatten = (groups.map eraseAll).flatten := by
  rw [eraseAll_eq_map, List.map_flatten, List.map_congr_left fun group _ => eraseAll_eq_map group]

theorem eraseAll_orTypename (composite : Bool) (selections : List Selection) :
    eraseAll (Plan.orTypename composite selections) =
      Plan.orTypename composite (eraseAll selections) := by
  cases selections with
  | nil => cases composite <;> rfl
  | cons selection rest => rfl

end Selection

def VariableDefinition.erase (definition : VariableDefinition) : VariableDefinition :=
  { definition with default? := definition.default?.map Value.erase }

def FragmentDefinition.erase (definition : FragmentDefinition) : FragmentDefinition :=
  { definition with selections := Selection.eraseAll definition.selections }

def Document.erase (document : Document) : Document where
  variableDefinitions := document.variableDefinitions.map VariableDefinition.erase
  selections := Selection.eraseAll document.selections
  fragmentDefinitions := document.fragmentDefinitions.map FragmentDefinition.erase

namespace Variables

def erase (table : Variables) : Variables := table.map fun _ entry => (entry.1, entry.2.erase)

theorem getElem?_erase (table : Variables) (name : Name) :
    table.erase[name]? = table[name]?.map fun entry => (entry.1, entry.2.erase) :=
  ExtTreeMap.getElem?_map

theorem erase_insert (table : Variables) (name : Name) (argument : Path)
    (definition : VariableDefinition) :
    erase (table.insert name (argument, definition)) =
      table.erase.insert name (argument, definition.erase) :=
  map_insert _ table name _

theorem declare_erase (table : Variables) (argument : Path) (definition : VariableDefinition) :
    table.erase.declare argument definition.erase =
      erase <$> table.declare argument definition := by
  unfold declare
  rw [show definition.erase.name = definition.name from rfl,
    show definition.erase.type = definition.type from rfl, getElem?_erase]
  cases table[definition.name]? with
  | none => exact congrArg Except.ok (erase_insert table _ _ _).symm
  | some entry =>
    dsimp only [Option.map_some]
    rw [show entry.2.erase.type = entry.2.type from rfl]
    by_cases type : entry.2.type = definition.type
    · rw [if_pos type, if_pos type]
      refine congrArg Except.ok ?_
      split
      · exact (erase_insert table _ _ _).symm
      · rfl
    · rw [if_neg type, if_neg type]
      split <;> rfl

theorem definitions_erase (table : Variables) :
    table.erase.definitions = table.definitions.map VariableDefinition.erase := by
  simp only [definitions, erase, ExtTreeMap.toList_map, List.map_map, Function.comp_def]

end Variables

namespace Fragments

def erase (table : Fragments) : Fragments := table.map fun _ definition => definition.erase

theorem getElem?_erase (table : Fragments) (name : Name) :
    table.erase[name]? = table[name]?.map FragmentDefinition.erase :=
  ExtTreeMap.getElem?_map

theorem erase_insert (table : Fragments) (name : Name) (definition : FragmentDefinition) :
    erase (table.insert name definition) = table.erase.insert name definition.erase :=
  map_insert _ table name _

theorem definitions_erase (table : Fragments) :
    table.erase.definitions = table.definitions.map FragmentDefinition.erase := by
  simp only [definitions, erase, ExtTreeMap.toList_map, List.map_map, Function.comp_def]

end Fragments

namespace Assembly

def erase (assembly : Assembly) : Assembly where
  waiting := assembly.waiting.map fun _ selections => Selection.eraseAll selections
  variableTable := assembly.variableTable.erase
  fragmentTable := assembly.fragmentTable.erase

variable (assembly : Assembly)

theorem getD_waiting_erase (parent : Chain) :
    assembly.erase.waiting.getD parent [] =
      Selection.eraseAll (assembly.waiting.getD parent []) := by
  rw [erase, ExtTreeMap.getD_map, ExtTreeMap.getD_eq_getD_getElem?]
  cases assembly.waiting[parent]? <;> rfl

theorem run_declare (argument : Path) (definition : VariableDefinition) :
    (declare argument definition).run assembly =
      (fun table => ((), { assembly with variableTable := table })) <$>
        assembly.variableTable.declare argument definition := by
  unfold declare
  simp only [StateT.run_bind, StateT.run_get, pure_bind]
  cases assembly.variableTable.declare argument definition <;> rfl

theorem run_define (definition : FragmentDefinition) :
    (define definition).run assembly =
      (fun table => ((), { assembly with fragmentTable := table })) <$>
        assembly.fragmentTable.define definition := by
  unfold define
  simp only [StateT.run_bind, StateT.run_get, pure_bind]
  cases assembly.fragmentTable.define definition <;> rfl

theorem run_declare_erase (argument : Path) (definition : VariableDefinition) :
    (declare argument definition.erase).run assembly.erase =
      Prod.map id erase <$> (declare argument definition).run assembly := by
  have declared : assembly.erase.variableTable.declare argument definition.erase =
      Variables.erase <$> assembly.variableTable.declare argument definition :=
    assembly.variableTable.declare_erase argument definition
  rw [run_declare, run_declare, declared]
  cases assembly.variableTable.declare argument definition <;> rfl

theorem run_take_erase (parent : Chain) :
    (take parent).run assembly.erase =
      Prod.map Selection.eraseAll erase <$> (take parent).run assembly := by
  have waits := assembly.getD_waiting_erase parent
  have rest := map_erase (fun _ => Selection.eraseAll) assembly.waiting parent
  show Except.ok (assembly.erase.waiting.getD parent [],
      { assembly.erase with waiting := assembly.erase.waiting.erase parent }) =
    Except.ok (Selection.eraseAll (assembly.waiting.getD parent []),
      erase { assembly with waiting := assembly.waiting.erase parent })
  rw [waits, erase, erase, rest]

theorem run_leave_erase (level : Nat) (parent : Chain) (selections : List Selection) :
    (leave level parent (Selection.eraseAll selections)).run assembly.erase =
      Prod.map id erase <$> (leave level parent selections).run assembly := by
  have there : assembly.erase.waiting.contains parent = assembly.waiting.contains parent :=
    ExtTreeMap.contains_map
  have more := map_insert (fun _ => Selection.eraseAll) assembly.waiting parent selections
  unfold leave
  simp only [StateT.run_bind, StateT.run_get, pure_bind, there]
  split
  · rfl
  · show Except.ok ((), { assembly.erase with
        waiting := assembly.erase.waiting.insert parent (Selection.eraseAll selections) }) =
      Except.ok ((), erase { assembly with waiting := assembly.waiting.insert parent selections })
    rw [erase, erase, more]

theorem document_erase : assembly.erase.document = Document.erase <$> assembly.document := by
  have others := map_erase (fun _ => Selection.eraseAll) assembly.waiting []
  have keys : (assembly.erase.waiting.erase []).toList.map Prod.fst =
      (assembly.waiting.erase []).toList.map Prod.fst := by
    rw [erase, ← others, ExtTreeMap.toList_map, List.map_map]
    rfl
  have none : (assembly.erase.waiting.erase []).isEmpty = (assembly.waiting.erase []).isEmpty := by
    rw [erase, ← others, isEmpty_map]
  unfold document
  dsimp only
  rw [none, keys, getD_waiting_erase]
  split
  · refine congrArg Except.ok ?_
    simp only [Document.erase, erase, Selection.eraseAll_orTypename, Variables.definitions_erase,
      Fragments.definitions_erase]
  · rfl

end Assembly

end PathQuery
