import PathQuery.Proofs.Spec.Building
import PathQuery.Cache.Basic

namespace PathQuery

open Std

namespace Spec

variable {spec middle after after' : Spec} {edit : Edit} {edits edits' rest : List Edit}

/-- Edits can be made if each is of the right kind and no argument gets two variables. -/
structure Admits (spec : Spec) (edits : List Edit) : Prop where
  inMode : ∀ edit ∈ edits, edit.InMode
  consistent : ∀ name argument, .bind name argument ∈ edits → ∀ other,
    spec.variableFor? argument = some other ∨ .bind other argument ∈ edits → other = name

theorem exists_update_eq_ok_iff : (∃ after, spec.update edits = .ok after) ↔ spec.Admits edits := by
  induction edits generalizing spec with
  | nil => exact ⟨fun _ => ⟨by simp, by simp⟩, fun _ => ⟨spec, rfl⟩⟩
  | cons edit rest ih =>
    constructor
    · intro made
      obtain ⟨after, updated⟩ := made
      have records := records_of_update updated
      rw [update_cons, bind_eq_ok_iff] at updated
      obtain ⟨middle, applied, updated⟩ := updated
      constructor
      · rw [List.forall_mem_cons]
        exact ⟨(makes_of_apply applied).admissible.1, (ih.mp ⟨after, updated⟩).inMode⟩
      · intro name argument binds other bound
        have one := (records.bound name argument).mpr (.inr binds)
        have another := (records.bound other argument).mpr bound
        exact Option.some.inj (another.symm.trans one)
    · intro admits
      have free : ¬ spec.Rebinds edit := by
        intro rebinds
        cases edit with
        | bind name argument =>
          obtain ⟨other, bound, different⟩ := rebinds
          exact different (admits.consistent name argument (by simp) other (.inl bound))
        | select path => exact rebinds
        | setDefault argument literal => exact rebinds
      obtain ⟨middle, applied⟩ := exists_apply_eq_ok_iff.mpr ⟨admits.inMode edit (by simp), free⟩
      have records := (makes_of_apply applied).records
      have rest : middle.Admits rest := by
        refine ⟨fun edit member => admits.inMode edit (List.mem_cons_of_mem _ member), ?_⟩
        intro name argument binds other bound
        refine admits.consistent name argument (List.mem_cons_of_mem _ binds) other ?_
        rw [records.bound, List.mem_singleton, or_assoc] at bound
        rwa [List.mem_cons]
      obtain ⟨after, updated⟩ := ih.mpr rest
      exact ⟨after, by rw [update_cons, applied]; exact updated⟩

theorem Admits.congr (same : ∀ edit, edit ∈ edits ↔ edit ∈ edits') (admits : spec.Admits edits) :
    spec.Admits edits' := by
  constructor
  · exact fun edit member => admits.inMode edit ((same edit).mpr member)
  · intro name argument binds other bound
    rw [← same] at binds bound
    exact admits.consistent name argument binds other bound

/-- What edits make of a spec depends on which they are and on the value each argument is given
last. -/
theorem Records.unique (records : spec.Records edits after) (records' : spec.Records edits' after')
    (same : ∀ edit, edit ∈ edits ↔ edit ∈ edits')
    (last : ∀ argument, (edits.filterMap (Edit.valueFor? argument)).getLast? =
      (edits'.filterMap (Edit.valueFor? argument)).getLast?) : after = after' := by
  have newly (name : Name) (argument : Path) :
      spec.NewlyFeeds edits name argument ↔ spec.NewlyFeeds edits' name argument :=
    and_congr_right fun _ => same _
  have fields : after.fields = after'.fields := by
    ext path
    rw [records.selected, records'.selected, same]
  have variableOf : after.variableOf = after'.variableOf := by
    apply ExtTreeMap.ext_getElem?
    intro argument
    apply Option.ext
    intro name
    exact (records.bound name argument).trans
      ((or_congr_right (same _)).trans (records'.bound name argument).symm)
  have argumentsOf : after.argumentsOf = after'.argumentsOf := by
    apply ExtTreeMap.ext_getElem?
    intro name
    have known : name ∈ after.argumentsOf ↔ name ∈ after'.argumentsOf := by
      simp only [records.known, records'.known, newly]
    have arguments : after.argumentsFor name = after'.argumentsFor name := by
      ext argument
      rw [records.fed, records'.fed, newly]
    rw [getElem?_argumentsOf, getElem?_argumentsOf, arguments]
    simp only [known]
  have defaults : after.defaults = after'.defaults := by
    apply ExtTreeMap.ext_getElem?
    intro argument
    have here := records.given argument
    rw [last argument] at here
    exact here.trans (records'.given argument).symm
  cases after
  cases after'
  simp_all

/-- In whatever order the edits of a spec come, they are all made or one of them is refused. The
spec they build is the same, and so is what it compiles to and its key in a cache, as long as the
values given to one argument keep their order. -/
theorem edits_in_any_order (spec : Spec) (edits edits' : List Edit) (perm : edits.Perm edits') :
    ((∃ after, spec.update edits = .ok after) ↔ ∃ after, spec.update edits' = .ok after) ∧
    ((∃ error, spec.update edits = .error error) ↔ ∃ error, spec.update edits' = .error error) ∧
    ((∀ argument, edits.filterMap (Edit.valueFor? argument) =
        edits'.filterMap (Edit.valueFor? argument)) →
      ∀ after after', spec.update edits = .ok after → spec.update edits' = .ok after' →
        after = after' ∧ ∀ schema : SchemaRef,
          compile schema.view after = compile schema.view after' ∧
          CompileRequest.key ⟨schema, after⟩ = CompileRequest.key ⟨schema, after'⟩) := by
  have same (edit : Edit) : edit ∈ edits ↔ edit ∈ edits' := perm.mem_iff
  have succeed : (∃ after, spec.update edits = .ok after) ↔
      ∃ after, spec.update edits' = .ok after := by
    rw [exists_update_eq_ok_iff, exists_update_eq_ok_iff]
    exact ⟨Admits.congr same, Admits.congr fun edit => (same edit).symm⟩
  refine ⟨succeed, ?_, ?_⟩
  · rw [exists_error_iff, exists_error_iff, succeed]
  · intro order after after' updated updated'
    have equal : after = after' := (records_of_update updated).unique (records_of_update updated')
      same fun argument => by rw [order argument]
    subst equal
    exact ⟨rfl, fun schema => ⟨rfl, rfl⟩⟩

end Spec

namespace Sample

def shelving : List Spec.Edit :=
  let books : Path := .ofFields [.of "shelf", .of "book"]
  let sorted := books.argumentPath (.of "sorted")
  [.select books, .setDefault sorted (.bool true), .bind (.of "how") sorted,
    .setDefault sorted (.bool false), .bind (.of "how") (books.argumentPath (.of "pages")),
    .bind (.of "how") sorted]

def reshelving : List Spec.Edit :=
  let books : Path := .ofFields [.of "shelf", .of "book"]
  let sorted := books.argumentPath (.of "sorted")
  [.bind (.of "how") sorted, .bind (.of "how") (books.argumentPath (.of "pages")),
    .setDefault sorted (.bool true), .bind (.of "how") sorted, .setDefault sorted (.bool false),
    .select books]

end Sample

theorem edits_in_any_order_shelving :
    Sample.shelving.Perm Sample.reshelving ∧
    (∀ argument, Sample.shelving.filterMap (Spec.Edit.valueFor? argument) =
      Sample.reshelving.filterMap (Spec.Edit.valueFor? argument)) ∧
    ∃ after, Spec.empty.update Sample.shelving = .ok after ∧
      Spec.empty.update Sample.reshelving = .ok after := by
  have perm : Sample.shelving.Perm Sample.reshelving := by decide +kernel
  have order (argument : Path) : Sample.shelving.filterMap (Spec.Edit.valueFor? argument) =
      Sample.reshelving.filterMap (Spec.Edit.valueFor? argument) := rfl
  have begins : (Spec.empty.update Sample.shelving).isOk = true := by decide +kernel
  obtain ⟨succeed, _, equal⟩ := Spec.edits_in_any_order .empty _ _ perm
  cases made : Spec.empty.update Sample.shelving with
  | error error =>
    rw [made] at begins
    cases begins
  | ok after =>
    obtain ⟨after', made'⟩ := succeed.mp ⟨after, made⟩
    obtain rfl := (equal order after after' made made').1
    exact ⟨perm, order, after, rfl, made'⟩

end PathQuery
