import PathQuery.CompileError
import PathQuery.Levels
import PathQuery.Schema.View

namespace PathQuery

structure ResolvedField where
  definition : FieldDefinition
  composite? : Option Name
deriving DecidableEq

abbrev Resolution := ChainMap ResolvedField

/-- The field a segment selects below a type: on the segment's own type condition, or else on the
type itself, or else on the first type behind it that has the field. -/
def SchemaView.select? (view : SchemaView) (type : Name) (segment : Segment) :
    Option FieldDefinition :=
  (segment.context.type?.bind (view.field? · segment.field))
    <|> view.field? type segment.field
    <|> (view.implementations type).toList.findSome? (view.field? · segment.field)

namespace Resolution

def parentType (root : Name) (resolution : Resolution) (chain : Chain) (segment : Segment) :
    Except CompileError Name :=
  if chain.dropLast.isEmpty then .ok root
  else match resolution[chain.dropLast]? with
    | none => .error (.breach (.missingParent chain chain.dropLast))
    | some parent =>
      match parent.composite? with
      | some type => .ok type
      | none =>
        .error (.unresolvedField chain parent.definition.type.innerName segment.field)

def addSelection (view : SchemaView) (root : Name) (level : Nat) (resolution : Resolution)
    (chain : Chain) : Except CompileError Resolution :=
  match chain.getLast? with
  | none => .error (.breach (.rootOnLevel level))
  | some segment => do
    let type ← parentType root resolution chain segment
    match view.select? type segment with
    | none => .error (.unresolvedField chain type segment.field)
    | some definition =>
      .ok (resolution.insert chain ⟨definition, view.compositeType? definition.type⟩)

def addLevel (view : SchemaView) (root : Name) (resolution : Resolution)
    (level : Nat × ChainSet) : Except CompileError Resolution :=
  level.2.toList.foldlM (addSelection view root level.1) resolution

end Resolution

end PathQuery
