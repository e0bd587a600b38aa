import ComponentLint.Report.Json
import ComponentLint.Proofs.Json.RoundTrip
import ComponentLint.Proofs.Report.Tally

/-! The entries of a report for other programs: one for each result with failures, and together they have every failure
and the counts of the report. What is printed is read back as these entries. -/
namespace ComponentLint

namespace Json.Value

/-- The value under a name. -/
def member? (name : String) : Value → Option Value
  | object members => (members.find? (·.1 = name.toList)).map (·.2)
  | _ => none

def countAt (name : String) (v : Value) : Nat :=
  match v.member? name with
  | some (.number (.natural n)) => n
  | _ => 0

def itemsAt (name : String) (v : Value) : List Value :=
  match v.member? name with
  | some (.list items) => items
  | _ => []

end Json.Value

/-- All counts and places fit into 64 bits. -/
structure FileResult.Fits (r : FileResult) : Prop where
  failures : r.failures.length < Nat.pow 2 64
  fixes : r.fixesApplied < Nat.pow 2 64
  places : ∀ f ∈ r.failures, ∀ p ∈ [f.first, f.last], p.line < Nat.pow 2 64 ∧ p.column < Nat.pow 2 64

instance (r : FileResult) : Decidable r.Fits :=
  decidable_of_iff (r.failures.length < Nat.pow 2 64 ∧ r.fixesApplied < Nat.pow 2 64 ∧
      ∀ f ∈ r.failures, ∀ p ∈ [f.first, f.last], p.line < Nat.pow 2 64 ∧ p.column < Nat.pow 2 64)
    ⟨fun ⟨failures, fixes, places⟩ => ⟨failures, fixes, places⟩, fun ⟨failures, fixes, places⟩ => ⟨failures, fixes, places⟩⟩

namespace Report

open Json

variable {base : Path} {r : FileResult} {f : Failure} {levels : Nat}

/-! ## What an entry says -/

theorem resultValue_errors (base : Path) (r : FileResult) :
    (resultValue base r).countAt "errorCount" = r.failures.countP (·.severity = .error) :=
  List.countP_eq_length_filter.symm

theorem resultValue_warnings (base : Path) (r : FileResult) :
    (resultValue base r).countAt "warningCount" = r.failures.countP (·.severity = .warning) :=
  List.countP_eq_length_filter.symm

/-- The results without failures add nothing. -/
theorem flatMap_hasFailures {α : Type} (results : List FileResult) (g : Failure → α) :
    (results.filter FileResult.hasFailures).flatMap (fun r => r.failures.map g) = (allFailures results).map g := by
  induction results with
  | nil => rfl
  | cons r results ih =>
    rw [allFailures, List.flatMap_cons, List.map_append, ← allFailures, ← ih]
    by_cases has : r.hasFailures = true
    · rw [List.filter_cons_of_pos has, List.flatMap_cons]
    · have none_ : r.failures = [] := by simpa [FileResult.hasFailures] using has
      rw [List.filter_cons_of_neg has, none_, List.map_nil, List.nil_append]

theorem sum_countP_hasFailures (results : List FileResult) (p : Failure → Bool) :
    ((results.filter FileResult.hasFailures).map fun r => r.failures.countP p).sum = (allFailures results).countP p := by
  have both := congrArg (List.countP p) (flatMap_hasFailures results id)
  rw [List.map_id, List.countP_flatMap] at both
  simpa [Function.comp_def] using both

/-! ## Reading entries back -/

theorem failureValue_fits (places : ∀ p ∈ [f.first, f.last], p.line < Nat.pow 2 64 ∧ p.column < Nat.pow 2 64) :
    (failureValue f).Fits (levels + 2) := by
  obtain ⟨⟨firstLine, firstColumn⟩, ⟨lastLine, lastColumn⟩⟩ :
      (f.first.line < Nat.pow 2 64 ∧ f.first.column < Nat.pow 2 64) ∧
        (f.last.line < Nat.pow 2 64 ∧ f.last.column < Nat.pow 2 64) := by simpa using places
  have level : severityLevel f.severity < Nat.pow 2 64 := by cases f.severity <;> decide
  refine .object ?_
  simp only [List.forall_mem_cons]
  exact ⟨.string, .number level, .string, .number firstLine, .number firstColumn, .number lastLine, .number lastColumn,
    .bool, by simp⟩

theorem resultValue_fits (fits : r.Fits) : (resultValue base r).Fits (levels + 4) := by
  have few (s : Severity) : severityCount r s < Nat.pow 2 64 :=
    Nat.lt_of_le_of_lt (List.length_filter_le ..) fits.failures
  refine .object ?_
  simp only [List.forall_mem_cons]
  refine ⟨.string, .list fun v member => ?_, .number (few _), .number (few _), .number fits.fixes, by simp⟩
  obtain ⟨f, among, rfl⟩ := List.mem_map.1 member
  exact failureValue_fits (fits.places f among)

/-- What is printed is read back as the list of the entries. -/
theorem document_json {r : Report} (fits : ∀ result ∈ r.results, result.Fits) (base : Path) :
    Reading.document (Reading.value Value.depthLimit) (r.json base) = .ok (r.value base) := by
  have fit : (r.value base).Fits Value.depthLimit := by
    refine .list fun v member => ?_
    obtain ⟨result, among, rfl⟩ := List.mem_map.1 member
    exact resultValue_fits (fits result (List.mem_filter.1 among).1)
  exact Reading.document_pretty fit

/-! ## All entries -/

/-- The printed entries, one for each result with failures in order. -/
structure Lists (r : Report) (base : Path) (entries : List Value) : Prop where
  printed : r.json base = (Value.list entries).pretty 0
  readBack : (∀ result ∈ r.results, result.Fits) →
    Reading.document (Reading.value Value.depthLimit) (r.json base) = .ok (.list entries)
  each : List.Forall₂ (fun result entry =>
      entry.member? "filePath" = some (textValue (shownPath base result.path)) ∧
      entry.itemsAt "messages" = result.failures.map failureValue ∧
      entry.countAt "errorCount" = result.failures.countP (·.severity = .error) ∧
      entry.countAt "warningCount" = result.failures.countP (·.severity = .warning))
    (r.results.filter FileResult.hasFailures) entries
  errors : (entries.map (·.countAt "errorCount")).sum = r.summary.errors
  warnings : (entries.map (·.countAt "warningCount")).sum = r.summary.warnings
  messages : entries.flatMap (·.itemsAt "messages") = (allFailures r.results).map failureValue

theorem Tallies.lists {r : Report} (h : r.Tallies) (base : Path) :
    r.Lists base ((r.results.filter FileResult.hasFailures).map (resultValue base)) where
  printed := rfl
  readBack fits := document_json fits base
  each := by
    rw [List.forall₂_map_right_iff, List.forall₂_same]
    exact fun result _ => ⟨rfl, rfl, resultValue_errors base result, resultValue_warnings base result⟩
  errors := by
    rw [List.map_map, h.errors, ← sum_countP_hasFailures]
    exact congrArg List.sum (List.map_congr_left fun result _ => resultValue_errors base result)
  warnings := by
    rw [List.map_map, h.warnings, ← sum_countP_hasFailures]
    exact congrArg List.sum (List.map_congr_left fun result _ => resultValue_warnings base result)
  messages := by
    rw [List.flatMap_map, ← flatMap_hasFailures]
    rfl

end Report

end ComponentLint
