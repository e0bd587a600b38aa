import ComponentLint.Proofs.Lint.Reporting
import Mathlib.Algebra.GroupWithZero.Nat

/-! The rounds of fixes of one text. What is found is any function of the text. A round is made only of a text without
syntax faults, and it counts only if it applies a fix and changes the text. Where the rounds stop before there are too
many of them, another round would do nothing, so the fixed text is left alone when it is linted again. -/
namespace ComponentLint

namespace Draft

variable {look : Text → List Diagnostic}

/-- Rounds of fixes from a text to another one, with the number of fixes that each round applies. -/
inductive Rounds (look : Text → List Diagnostic) : Text → List Nat → Text → Prop where
  | done (t : Text) : Rounds look t [] t
  | round {t next final : Text} {applied : Nat} {counts : List Nat} :
      (∀ d ∈ look t, d.isSyntax = false) → Fixes.apply t (look t) = (next, applied) → 0 < applied → next ≠ t →
      Rounds look next counts final → Rounds look t (applied :: counts) final

/-- Another round would do nothing: the text has a syntax fault, or the fixes that are found in it do not change it. -/
def Settled (look : Text → List Diagnostic) (t : Text) : Prop :=
  (∃ d ∈ look t, d.isSyntax = true) ∨ (Fixes.apply t (look t)).1 = t

/-- Without a fix that is applied the text is as it was. -/
theorem apply_of_none {t next : Text} {ds : List Diagnostic} (fixed : Fixes.apply t ds = (next, 0)) : next = t := by
  simp only [Fixes.apply, Prod.mk.injEq, List.length_eq_zero_iff] at fixed
  obtain ⟨made, none_⟩ := fixed
  simpa [none_, Fixes.schedule, Sorting.sort, Fixes.run] using made.symm

/-- A settled text stays, and every other one goes through a round. -/
theorem rounds_succ (n : Nat) {d : Draft} (found : d.diagnostics = look d.text) :
    (Settled look d.text ∧ d.rounds look (n + 1) = d) ∨
      ∃ next applied, (∀ x ∈ look d.text, x.isSyntax = false) ∧
        Fixes.apply d.text (look d.text) = (next, applied) ∧ 0 < applied ∧ next ≠ d.text ∧
        d.rounds look (n + 1) = rounds look n ⟨next, look next, d.applied + applied⟩ := by
  rw [rounds, found]
  by_cases faulty : (look d.text).any Diagnostic.isSyntax = true
  · exact .inl ⟨.inl (by simpa using faulty), if_pos faulty⟩
  · cases fixed : Fixes.apply d.text (look d.text) with
    | mk next applied =>
      rw [if_neg faulty]
      dsimp only
      by_cases still : applied = 0 ∨ next = d.text
      · have same : next = d.text := by
          rcases still with rfl | same
          · exact apply_of_none fixed
          · exact same
        exact .inl ⟨.inr (by rw [fixed]; exact same), by simp [still]⟩
      · have clean : ∀ x ∈ look d.text, x.isSyntax = false := by simpa using faulty
        obtain ⟨some_, changed⟩ := not_or.1 still
        exact .inr ⟨next, applied, clean, rfl, Nat.pos_of_ne_zero some_, changed, by simp [some_, changed]⟩

theorem rounds_of_settled (n : Nat) {d : Draft} (found : d.diagnostics = look d.text) (settled : Settled look d.text) :
    d.rounds look n = d := by
  cases n with
  | zero => rfl
  | succ n =>
    rcases rounds_succ n found with ⟨-, stays⟩ | ⟨next, applied, clean, fixed, -, changed, -⟩
    · exact stays
    · rcases settled with ⟨x, member, faulty⟩ | same
      · simp [clean x member] at faulty
      · rw [fixed] at same
        exact absurd same changed

/-- The draft has gone through rounds whose fixes are counted, no more than it may, and fewer only if it is settled. -/
theorem rounds_trace (n : Nat) {d : Draft} (found : d.diagnostics = look d.text) :
    ∃ counts, Rounds look d.text counts (d.rounds look n).text ∧ counts.length ≤ n ∧
      (d.rounds look n).applied = d.applied + counts.sum ∧
      (counts.length < n → Settled look (d.rounds look n).text) := by
  induction n generalizing d with
  | zero => exact ⟨[], .done d.text, by simp, rfl, by simp⟩
  | succ n ih =>
    rcases rounds_succ n found with ⟨settled, stays⟩ | ⟨next, applied, clean, fixed, some_, changed, goes⟩
    · rw [stays]
      exact ⟨[], .done d.text, by simp, rfl, fun _ => settled⟩
    · obtain ⟨counts, rounds_, bound, sum, rests⟩ := ih (d := ⟨next, look next, d.applied + applied⟩) rfl
      rw [goes]
      refine ⟨applied :: counts, .round clean fixed some_ changed rounds_, by simpa using bound, ?_, fun fewer => ?_⟩
      · rw [sum, List.sum_cons, Nat.add_assoc]
      · exact rests (by simpa using fewer)

/-- Each round applies a fix, so there are no more rounds than fixes. -/
theorem Rounds.length_le_sum {t final : Text} {counts : List Nat} (h : Rounds look t counts final) :
    counts.length ≤ counts.sum := by
  induction h with
  | done => simp
  | round _ _ some_ _ _ ih =>
    simp only [List.length_cons, List.sum_cons]
    omega

theorem Rounds.sum_eq_zero_iff {t final : Text} {counts : List Nat} (h : Rounds look t counts final) :
    counts.sum = 0 ↔ counts = [] := by
  constructor
  · intro none_
    have short := h.length_le_sum
    exact List.length_eq_zero_iff.1 (by omega)
  · rintro rfl
    rfl

end Draft

namespace SourceUnit

variable {look : Text → List Diagnostic}

theorem Rooted.of_plain {u : SourceUnit} (plain : u.origin = none) : u.Rooted := by
  intro o origin
  simp [plain] at origin

/-- A plain unit is reported as its draft, which is written if a fix was applied. -/
theorem lint_draft {u : SourceUnit} (plain : u.origin = none) (inspect : Inspection) (fixes : Bool) :
    let d := u.draft inspect fixes
    u.lint inspect fixes = ⟨if d.applied = 0 then none else some d.text,
      ⟨u.path, d.text, (inspect u d.text).map (Failure.ofDiagnostic d.text 0), d.applied⟩⟩ := by
  intro d
  by_cases none_ : d.applied = 0
  · obtain ⟨⟨path, document, failures, applied⟩, linted, rfl, rfl, rfl, reports⟩ :=
      lint_unwritten (Rooted.of_plain plain) none_
    have text : d.text = u.text := draft_unchanged u inspect fixes none_
    have placed : failures = (inspect u u.text).map (Failure.ofDiagnostic u.document u.originOffset) :=
      reports.failures
    rw [document_plain plain, originOffset_plain plain] at placed
    rw [linted, if_pos none_, none_, text, placed, document_plain plain]
  · obtain ⟨⟨path, document, failures, applied⟩, linted, rfl, rfl, rfl, reports⟩ := lint_plain plain none_
    have placed : failures = (inspect u d.text).map (Failure.ofDiagnostic d.text 0) := reports.failures
    rw [linted, if_neg none_, placed]

/-- A plain unit is fixed in at most ten rounds, each of a text without syntax faults, which applies a fix and changes
the text; all fixes that they apply are counted, and what is reported is what is found in the text after them. With less
than ten rounds, that text is settled, and a plain unit that has it is linted without a write and a fix and with the same
failures, whatever the writer. -/
theorem lint_settles (look : Text → List Diagnostic) (u : SourceUnit) (plain : u.origin = none) :
    let o := u.lint (fun _ => look) true
    ∃ counts final failures, Draft.Rounds look u.text counts final ∧ counts.length ≤ 10 ∧
      o.written = (if counts = [] then none else some final) ∧
      failures = (look final).map (Failure.ofDiagnostic final 0) ∧
      o.result = ⟨u.path, final, failures, counts.sum⟩ ∧
      (counts.length < 10 → Draft.Settled look final ∧
        ∀ v : SourceUnit, v.origin = none → v.text = final →
          ∀ (σ : Type) (write : FileWriter σ) (files : σ),
            v.lintThrough (fun _ => look) true write files = (.ok ⟨v.path, final, failures, 0⟩, files)) := by
  intro o
  let start : Draft := ⟨u.text, look u.text, 0⟩
  obtain ⟨counts, rounds_, bound, sum, rests⟩ := Draft.rounds_trace Draft.mostRounds
    (show start.diagnostics = look start.text from rfl)
  have linted : o = _ := lint_draft plain (fun _ => look) true
  have draft : u.draft (fun _ => look) true = start.rounds look Draft.mostRounds := rfl
  rw [Nat.zero_add] at sum
  rw [draft, sum] at linted
  refine ⟨counts, _, _, rounds_, bound, ?_, rfl, ?_, fun fewer => ⟨rests fewer, fun v plainV text σ write files => ?_⟩⟩
  · simp only [linted, rounds_.sum_eq_zero_iff]
  · rw [linted]
  · have stays : v.draft (fun _ => look) true = ⟨v.text, look v.text, 0⟩ :=
      Draft.rounds_of_settled Draft.mostRounds rfl (by rw [text]; exact rests fewer)
    rw [lintThrough, lint_draft plainV, stays, text]
    rfl

/-- Of two fixes at one place the second waits. The third text is settled though it has fixes: one changes nothing, and
the other does not fit. -/
theorem lint_settles_letters :
    let carry (start stop : Nat) (new : String) : Diagnostic :=
      ⟨"rule", .warning, "", ⟨start, stop⟩, none, some (.single "" ⟨start, stop⟩ new.toList)⟩
    let look : Text → List Diagnostic := fun t =>
      if t = "ab".toList then [carry 0 1 "b", carry 0 2 "c"] else if t = "bb".toList then [carry 1 2 ""]
      else [carry 0 1 "b", carry 5 6 ""]
    let u : SourceUnit := ⟨⟨"/a.ts".toList⟩, "ab".toList, .ts, none⟩
    let v : SourceUnit := ⟨⟨"/b.ts".toList⟩, "b".toList, .tsx, none⟩
    let o := u.lint (fun _ => look) true
    u.origin = none ∧ v.origin = none ∧ o.written = some "b".toList ∧
      ∃ failures, o.result = ⟨u.path, "b".toList, failures, 2⟩ ∧ Draft.Settled look "b".toList ∧
        ∀ (σ : Type) (write : FileWriter σ) (files : σ),
          v.lintThrough (fun _ => look) true write files = (.ok ⟨v.path, "b".toList, failures, 0⟩, files) := by
  intro carry look u v o
  have plain : u.origin = none := rfl
  obtain ⟨counts, final, failures, rounds_, -, -, -, result, rests⟩ := lint_settles look u plain
  change o.result = _ at result
  have now : o.written = some "b".toList ∧ o.result.document = "b".toList ∧ o.result.fixesApplied = 2 := by
    decide +kernel
  -- nothing below looks into the outcome, which is costly to evaluate
  clear_value o
  obtain ⟨written, document, two⟩ := now
  have sum : counts.sum = 2 := (congrArg FileResult.fixesApplied result).symm.trans two
  have text : final = "b".toList := (congrArg FileResult.document result).symm.trans document
  have short := rounds_.length_le_sum
  subst text
  obtain ⟨settled, again⟩ := rests (by omega)
  rw [sum] at result
  exact ⟨plain, rfl, written, failures, result, settled, again v rfl rfl⟩

end SourceUnit

end ComponentLint
