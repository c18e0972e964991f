import PathQuery.Proofs.Declarations
import Mathlib.Data.List.Nodup

namespace PathQuery

open Std

namespace Variables

variable {table : Variables} {declared declared' : List Declaration}

def declareAll (declared : List Declaration) : Except CompileError Variables :=
  declared.foldlM (fun table declaration => table.declare declaration.1 declaration.2) ∅

def Distinct (declared : List Declaration) : Prop := (declared.map Prod.fst).Nodup

instance (declared : List Declaration) : Decidable (Distinct declared) :=
  inferInstanceAs (Decidable (List.Nodup _))

def Compatible (declared : List Declaration) : Prop :=
  ∀ first ∈ declared, ∀ second ∈ declared, first.2.name = second.2.name →
    first.2.type = second.2.type

/-- Every declared variable is listed once and by name, as it was declared for the first of its
arguments. -/
structure Lists (declared : List Declaration) (definitions : List VariableDefinition) : Prop where
  sorted : definitions.Pairwise fun a b => compare a.name b.name = .lt
  listed : ∀ declaration ∈ declared,
    ∃ definition ∈ definitions, definition.name = declaration.2.name
  first : ∀ definition ∈ definitions, ∃ argument, (argument, definition) ∈ declared ∧
    ∀ other ∈ declared, other.2.name = definition.name →
      other = (argument, definition) ∨ compare argument other.1 = .lt

/-- The error is about two declarations of one variable with different types, the one for the
smaller argument first. -/
def Reports (declared : List Declaration) (error : CompileError) : Prop :=
  ∃ first ∈ declared, ∃ second ∈ declared, first.2.name = second.2.name ∧
    first.2.type ≠ second.2.type ∧ compare first.1 second.1 = .lt ∧
      error = .variableConflict first.2.name first.2.type second.2.type

theorem Distinct.perm (distinct : Distinct declared) (perm : declared.Perm declared') :
    Distinct declared' :=
  (perm.map Prod.fst).nodup distinct

theorem Distinct.lt_of_isLE (distinct : Distinct declared) {first second : Declaration}
    (one : first ∈ declared) (other : second ∈ declared) (different : first ≠ second)
    (notAbove : (compare first.1 second.1).isLE) : compare first.1 second.1 = .lt := by
  rcases Ordering.isLE_iff_eq_lt_or_eq_eq.mp notAbove with less | equal
  · exact less
  · have same : first = second :=
      List.inj_on_of_nodup_map distinct one other (LawfulEqOrd.eq_of_compare equal)
    exact absurd same different

theorem Conflict.mono {error : CompileError} (conflict : Conflict declared error)
    (subset : declared ⊆ declared') : Conflict declared' error := by
  obtain ⟨first, one, second, other, same, different, below, named⟩ := conflict
  exact ⟨first, subset one, second, subset other, same, different, below, named⟩

theorem Conflict.not_compatible {error : CompileError} (conflict : Conflict declared error) :
    ¬ Compatible declared := by
  intro compatible
  obtain ⟨first, one, second, other, same, different, -, -⟩ := conflict
  exact different (compatible first one second other same)

theorem Conflict.reports {error : CompileError} (conflict : Conflict declared error)
    (distinct : Distinct declared) : Reports declared error := by
  obtain ⟨first, one, second, other, same, different, below, named⟩ := conflict
  have apart : first ≠ second := fun equal => different (by rw [equal])
  have less := distinct.lt_of_isLE one other apart below
  exact ⟨first, one, second, other, same, different, less, named⟩

theorem Least.eq_or_lt (distinct : Distinct declared) {name : Name} {entry : Declaration}
    (least : Least declared name (some entry)) :
    ∀ other ∈ declared, other.2.name = name → other = entry ∨ compare entry.1 other.1 = .lt := by
  intro other member same
  obtain ⟨inside, -, below⟩ := least
  by_cases equal : other = entry
  · exact .inl equal
  · exact .inr (distinct.lt_of_isLE inside member (Ne.symm equal) (below other member same).2)

theorem Least.unique (distinct : Distinct declared) {name : Name}
    {kept? kept?' : Option Declaration}
    (least : Least declared name kept?) (least' : Least declared name kept?') : kept? = kept?' := by
  cases kept? with
  | none =>
    cases kept?' with
    | none => rfl
    | some entry => exact absurd least'.2.1 (least entry least'.1)
  | some entry =>
    cases kept?' with
    | none => exact absurd least.2.1 (least' entry least.1)
    | some entry' =>
      rcases least.eq_or_lt distinct entry' least'.1 least'.2.1 with same | less
      · rw [same]
      · rcases least'.eq_or_lt distinct entry least.1 least.2.1 with same | greater
        · rw [same]
        · have self := TransCmp.lt_trans less greater
          rw [ReflOrd.compare_self] at self
          cases self

theorem Least.congr {name : Name} {kept? : Option Declaration}
    (same : ∀ declaration, declaration ∈ declared ↔ declaration ∈ declared')
    (least : Least declared name kept?) : Least declared' name kept? := by
  cases kept? with
  | none => exact fun other member => least other ((same other).mpr member)
  | some entry =>
    obtain ⟨member, named, below⟩ := least
    exact ⟨(same entry).mp member, named, fun other inside => below other ((same other).mpr inside)⟩

theorem Holds.compatible (holds : table.Holds declared) : Compatible declared := by
  intro first one second other same
  have least := holds second.2.name
  cases found : table[second.2.name]? with
  | none =>
    rw [found] at least
    exact absurd rfl (least second other)
  | some entry =>
    rw [found] at least
    have firstType := (least.2.2 first one same).1
    have secondType := (least.2.2 second other rfl).1
    rw [firstType, secondType]

theorem Holds.unique {table' : Variables} (distinct : Distinct declared)
    (holds : table.Holds declared) (holds' : table'.Holds declared) : table = table' := by
  apply ExtTreeMap.ext_getElem?
  intro name
  exact (holds name).unique distinct (holds' name)

theorem Holds.lists (distinct : Distinct declared) (holds : table.Holds declared) :
    Lists declared table.definitions where
  sorted := holds.definitions_sorted
  listed _ member := holds.exists_definition member
  first definition member := by
    obtain ⟨argument, least⟩ := holds.least_of_mem member
    exact ⟨argument, least.1, least.eq_or_lt distinct⟩

theorem meets_declareAll (declared : List Declaration) :
    Meets (Conflict declared) (fun table => Holds table declared) (declareAll declared) := by
  apply Meets.foldlM (fun done table => Holds table done) holds_empty
  intro done latest rest table split holds
  have sofar : done ++ [latest] ⊆ declared := by
    rw [split, List.append_cons done latest rest]
    exact List.subset_append_left _ _
  apply (holds.meets_declare latest).weaken
  · intro error conflict
    exact conflict.mono sofar
  · intro table holds
    exact holds

theorem exists_declareAll_eq_ok_iff :
    (∃ table, declareAll declared = .ok table) ↔ Compatible declared := by
  constructor
  · intro succeeds
    obtain ⟨table, made⟩ := succeeds
    exact ((meets_declareAll declared).of_ok made).compatible
  · intro compatible
    cases made : declareAll declared with
    | ok table => exact ⟨table, rfl⟩
    | error error =>
      have conflict := (meets_declareAll declared).of_error made
      exact absurd compatible conflict.not_compatible

theorem declareAll_eq_ok_of_perm (distinct : Distinct declared) (perm : declared.Perm declared')
    (made : declareAll declared = .ok table) : declareAll declared' = .ok table := by
  have holds := (meets_declareAll declared).of_ok made
  have same : ∀ declaration, declaration ∈ declared ↔ declaration ∈ declared' :=
    fun declaration => perm.mem_iff
  cases made' : declareAll declared' with
  | ok table' =>
    have holds' := (meets_declareAll declared').of_ok made'
    have moved : table.Holds declared' := fun name => (holds name).congr same
    rw [moved.unique (distinct.perm perm) holds']
  | error error =>
    have conflict := (meets_declareAll declared').of_error made'
    have back := conflict.mono perm.symm.subset
    exact absurd holds.compatible back.not_compatible

/-- Declarations for different arguments can all be made exactly if those of each variable have one
type. Their order does not matter: any other leads to the same table, which lists each variable as
it was declared for the first of its arguments. A failure names two types of one variable, the one
for the smaller argument first. -/
theorem declarations_in_any_order (declared declared' : List Declaration)
    (distinct : Distinct declared) (perm : declared.Perm declared') :
    ((∃ table, declareAll declared = .ok table) ↔ Compatible declared) ∧
    ((∃ table, declareAll declared' = .ok table) ↔ ∃ table, declareAll declared = .ok table) ∧
    ((∃ error, declareAll declared' = .error error) ↔
      ∃ error, declareAll declared = .error error) ∧
    (∀ table, declareAll declared = .ok table →
      declareAll declared' = .ok table ∧ Lists declared table.definitions) ∧
    ∀ error, declareAll declared = .error error ∨ declareAll declared' = .error error →
      Reports declared error := by
  have succeed : (∃ table, declareAll declared' = .ok table) ↔
      ∃ table, declareAll declared = .ok table := by
    constructor
    · intro succeeds
      obtain ⟨table, made⟩ := succeeds
      exact ⟨table, declareAll_eq_ok_of_perm (distinct.perm perm) perm.symm made⟩
    · intro succeeds
      obtain ⟨table, made⟩ := succeeds
      exact ⟨table, declareAll_eq_ok_of_perm distinct perm made⟩
  refine ⟨exists_declareAll_eq_ok_iff, succeed, ?_, ?_, ?_⟩
  · rw [exists_error_iff, exists_error_iff, succeed]
  · intro table made
    have holds := (meets_declareAll declared).of_ok made
    exact ⟨declareAll_eq_ok_of_perm distinct perm made, holds.lists distinct⟩
  · intro error fails
    rcases fails with failed | failed
    · exact ((meets_declareAll declared).of_error failed).reports distinct
    · have conflict := (meets_declareAll declared').of_error failed
      exact (conflict.mono perm.symm.subset).reports distinct

end Variables

namespace Sample

def page (field : Name) (default : String) : Declaration :=
  ((Path.ofFields [.of "list", field]).argumentPath (.of "page"),
    ⟨.of "page", .named (.of "PageNumber") false, some (.int default)⟩)

def sorting : Declaration :=
  ((Path.ofFields [.of "list"]).argumentPath (.of "sorting"),
    ⟨.of "sorting", .named (.of "Sorting") true, none⟩)

def pages : List Declaration :=
  [page (.of "books") "2", page (.of "authors") "1", sorting, page (.of "prices") "3"]

end Sample

theorem declarations_in_any_order_pages :
    let shelved : Declaration := (Sample.sorting.1, { Sample.sorting.2 with name := .of "page" })
    Variables.Distinct Sample.pages ∧ Sample.pages.Perm Sample.pages.reverse ∧
    (∃ table, Variables.declareAll Sample.pages = .ok table ∧
      Variables.declareAll Sample.pages.reverse = .ok table ∧
      table.definitions = [(Sample.page (.of "authors") "1").2, Sample.sorting.2]) ∧
    Variables.Distinct (shelved :: [Sample.page (.of "books") "2"]) ∧
    ∃ error, Variables.declareAll [shelved, Sample.page (.of "books") "2"] = .error error ∧
      Variables.Reports [shelved, Sample.page (.of "books") "2"] error := by
  intro shelved
  have distinct : Variables.Distinct Sample.pages := by decide +kernel
  have distinct' : Variables.Distinct [shelved, Sample.page (.of "books") "2"] := by
    decide +kernel
  have perm : Sample.pages.Perm Sample.pages.reverse := (List.reverse_perm _).symm
  have listed : (Variables.declareAll Sample.pages).toOption.map Variables.definitions =
      some [(Sample.page (.of "authors") "1").2, Sample.sorting.2] := by decide +kernel
  have failed : Variables.declareAll [shelved, Sample.page (.of "books") "2"] =
      .error (.variableConflict (.of "page") (.named (.of "Sorting") true)
        (.named (.of "PageNumber") false)) := by decide +kernel
  obtain ⟨-, -, -, same, -⟩ := Variables.declarations_in_any_order _ _ distinct perm
  obtain ⟨-, -, -, -, reports⟩ :=
    Variables.declarations_in_any_order _ _ distinct' (.refl _)
  refine ⟨distinct, perm, ?_, distinct', _, failed, reports _ (.inl failed)⟩
  cases made : Variables.declareAll Sample.pages with
  | error error =>
    rw [made] at listed
    cases listed
  | ok table =>
    rw [made] at listed
    exact ⟨table, rfl, (same table made).1, Option.some.inj listed⟩

end PathQuery
