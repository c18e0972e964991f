import PathQuery.Proofs.Document.Variables

namespace PathQuery

open Std

namespace Query

variable {query : Query} {definition other : VariableDefinition} {document document' : Document}

theorem Declares.default?_eq {argument : Path} (declares : query.Declares (argument, definition)) :
    definition.default? = query.explicit? argument definition.type := by
  obtain ⟨chain, input, -, same⟩ := declares.feeds
  obtain ⟨rfl, same⟩ := Prod.mk.inj same
  rw [same]

theorem Settles.unique (settles : query.Settles definition) (settles' : query.Settles other)
    (named : definition.name = other.name) : definition = other := by
  obtain ⟨argument, declares, least⟩ := settles
  obtain ⟨argument', declares', least'⟩ := settles'
  obtain ⟨type, below⟩ := least _ declares' named.symm
  obtain ⟨-, above⟩ := least' _ declares named
  have same : argument = argument' :=
    LawfulEqOrd.eq_of_compare (OrientedCmp.isLE_antisymm below above)
  have default : definition.default? = other.default? := by
    rw [declares.default?_eq, declares'.default?_eq, same, type]
  cases definition
  cases other
  simp_all

namespace Answers

theorem mem_variables (answers : query.Answers document) :
    definition ∈ document.variableDefinitions ↔ query.Settles definition := by
  constructor
  · exact answers.settles definition
  · intro settles
    have declares : ∃ argument, query.Declares (argument, definition) :=
      settles.imp fun _ => And.left
    obtain ⟨argument, declares⟩ := declares
    obtain ⟨other, member, named⟩ := answers.declares _ declares
    rwa [(answers.settles other member).unique settles named] at member

theorem unique (answers : query.Answers document) (answers' : query.Answers document') :
    document = document' := by
  have declared : document.variableDefinitions = document'.variableDefinitions :=
    eq_of_keys_sorted answers.variables_sorted answers'.variables_sorted fun _ =>
      answers.mem_variables.trans answers'.mem_variables.symm
  have fragments : document.fragmentDefinitions = document'.fragmentDefinitions :=
    eq_of_keys_sorted answers.fragments_sorted answers'.fragments_sorted fun definition =>
      (answers.mem_fragments definition).trans (answers'.mem_fragments definition).symm
  have selections : document.selections = document'.selections :=
    answers.selections.trans answers'.selections.symm
  cases document
  cases document'
  simp_all

end Answers

theorem Compilable.not_blames (compilable : query.Compilable) (error : CompileError) :
    ¬ query.Blames error := by
  intro blames
  cases error with
  | noQueryRoot => exact blames compilable.rooted
  | unresolvedField chain type field => exact blames compilable.resolved
  | invalidKey argument key => exact blames compilable.bound
  | unboundArgument argument name type => exact blames compilable.bound
  | variableConflict name existing conflicting => exact blames compilable.typed
  | fragmentConflict fragment => exact blames compilable.consistent
  | breach what => exact blames

/-- There is nothing more to the document that a query compiles to than that it is the answer. -/
theorem compile_eq_ok_iff :
    compile query.view query.spec = .ok document ↔ query.Answers document := by
  have meets := meets_compile query
  constructor
  · exact meets.of_ok
  · intro answers
    cases outcome : compile query.view query.spec with
    | error error =>
      exact absurd (meets.of_error outcome).blames (answers.compilable.not_blames error)
    | ok other => rw [(meets.of_ok outcome).unique answers]

end Query

end PathQuery
