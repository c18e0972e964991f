import PathQuery.CompileError
import PathQuery.Document.Basic
import PathQuery.Path.Order
import PathQuery.Schema.Basic

namespace PathQuery

abbrev Variables := NameMap (Path × VariableDefinition)

namespace Variables

def declare (table : Variables) (argument : Path) (definition : VariableDefinition) :
    Except CompileError Variables :=
  let comesFirst (path : Path) : Bool := compare argument path == .lt
  match table[definition.name]? with
  | none => .ok (table.insert definition.name (argument, definition))
  | some (path, existing) =>
    if existing.type = definition.type then
      .ok (if comesFirst path then table.insert definition.name (argument, definition)
        else table)
    else if comesFirst path then
      .error (.variableConflict definition.name definition.type existing.type)
    else .error (.variableConflict definition.name existing.type definition.type)

def definitions (table : Variables) : List VariableDefinition :=
  table.toList.map fun entry => entry.2.2

end Variables

abbrev Fragments := NameMap FragmentDefinition

namespace Fragments

def define (table : Fragments) (definition : FragmentDefinition) :
    Except CompileError Fragments :=
  match table[definition.name]? with
  | none => .ok (table.insert definition.name definition)
  | some existing =>
    if existing = definition then .ok table else .error (.fragmentConflict definition.name)

def definitions (table : Fragments) : List FragmentDefinition :=
  table.toList.map Prod.snd

end Fragments

end PathQuery
