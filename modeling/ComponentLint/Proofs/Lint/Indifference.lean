import ComponentLint.Lint.Linter
import ComponentLint.Proofs.Lint.Reporting
import ComponentLint.Proofs.Lint.Substitution

/-! What does not change what is written. The rounds of fixes look at the fixes of what is found, in their order, and
at whether a text has syntax faults, and at nothing else; so they go the same way whatever the severities are, and
whether or not there are findings besides that have no fix. -/
namespace ComponentLint

/-! ## Results up to their failures -/

def FileResult.onFailures (f : List Failure → List Failure) (r : FileResult) : FileResult :=
  { r with failures := f r.failures }

namespace Outcome

/-- The outcome with other failures. What is written and all that is reported besides stay. -/
def onFailures (f : List Failure → List Failure) (o : Outcome) : Outcome := { o with result := o.result.onFailures f }

@[simp] theorem onFailures_written (f : List Failure → List Failure) (o : Outcome) :
    (o.onFailures f).written = o.written := rfl

variable {σ : Type}

/-- What comes of a delivery, with other failures. -/
def reported (f : List Failure → List Failure) (delivered : Except FileFault FileResult × σ) :
    Except FileFault FileResult × σ :=
  (delivered.1.map (·.onFailures f), delivered.2)

/-- A writer does not see the failures. -/
theorem deliver_onFailures (o : Outcome) (f : List Failure → List Failure) (path : Path) (write : FileWriter σ)
    (files : σ) : (o.onFailures f).deliver path write files = reported f (o.deliver path write files) := by
  obtain ⟨written, result⟩ := o
  cases written with
  | none => rfl
  | some text =>
    simp only [onFailures, deliver]
    rcases write path text files with ⟨fault | _, after⟩ <;> rfl

end Outcome

/-! ## Findings that lead to the same rounds -/

/-- Findings with the same fixes, in the same order, that agree on whether there is a syntax fault. -/
structure Alike (found found' : List Diagnostic) : Prop where
  faulty : found.any Diagnostic.isSyntax = found'.any Diagnostic.isSyntax
  fixes : found.filterMap (·.fix) = found'.filterMap (·.fix)

theorem Alike.apply {found found' : List Diagnostic} (h : Alike found found') (t : Text) :
    Fixes.apply t found = Fixes.apply t found' := by
  simp only [Fixes.apply, Fixes.candidates, h.fixes]

/-- Findings may be left out if they have no fix and are no syntax faults. -/
theorem alike_filter {found : List Diagnostic} {keep : Diagnostic → Bool}
    (idle : ∀ d ∈ found, keep d = false → d.fix = none ∧ d.isSyntax = false) : Alike (found.filter keep) found := by
  induction found with
  | nil => exact ⟨rfl, rfl⟩
  | cons d found ih =>
    obtain ⟨faulty, fixes⟩ := ih fun e member => idle e (List.mem_cons_of_mem _ member)
    cases kept : keep d with
    | true =>
      rw [List.filter_cons_of_pos kept]
      exact ⟨by rw [List.any_cons, List.any_cons, faulty], by rw [List.filterMap_cons, List.filterMap_cons, fixes]⟩
    | false =>
      obtain ⟨noFix, noSyntax⟩ := idle d (List.mem_cons_self ..) kept
      rw [List.filter_cons_of_neg (by rw [kept]; decide)]
      exact ⟨by rw [List.any_cons, faulty, noSyntax, Bool.false_or], by rw [List.filterMap_cons_none noFix, fixes]⟩

namespace Draft

variable {look look' : Text → List Diagnostic}

/-- A round makes the same text of drafts that are alike, or stops at both. -/
theorem rounds_alike (alike : ∀ t, Alike (look t) (look' t)) (n : Nat) {d d' : Draft} (text : d.text = d'.text)
    (applied : d.applied = d'.applied) (found : Alike d.diagnostics d'.diagnostics) :
    (d.rounds look n).text = (d'.rounds look' n).text ∧ (d.rounds look n).applied = (d'.rounds look' n).applied := by
  induction n generalizing d d' with
  | zero => exact ⟨text, applied⟩
  | succ n ih =>
    rw [rounds, rounds, found.faulty, found.apply, text]
    by_cases faulty : d'.diagnostics.any Diagnostic.isSyntax = true
    · rw [if_pos faulty, if_pos faulty]
      exact ⟨text, applied⟩
    · rw [if_neg faulty, if_neg faulty]
      cases Fixes.apply d'.text d'.diagnostics with
      | mk fixed count =>
        dsimp only
        split_ifs with stops
        · exact ⟨text, applied⟩
        · exact ih rfl (by rw [applied]) (alike fixed)

end Draft

namespace SourceUnit

variable {inspect inspect' : Inspection}

theorem draft_alike (alike : ∀ v t, Alike (inspect v t) (inspect' v t)) (u : SourceUnit) (fixes : Bool) :
    (u.draft inspect fixes).text = (u.draft inspect' fixes).text ∧
      (u.draft inspect fixes).applied = (u.draft inspect' fixes).applied := by
  cases fixes with
  | false => exact ⟨rfl, rfl⟩
  | true => exact Draft.rounds_alike (alike u) Draft.mostRounds rfl rfl (alike u u.text)

/-- Inspections whose findings are alike, and the same but for what is made of the failures, come to the same outcome but
for that. -/
theorem lint_alike (alike : ∀ v t, Alike (inspect v t) (inspect' v t)) {f f' : List Failure → List Failure}
    (same : ∀ w v t, f (place w (inspect v t)) = f' (place w (inspect' v t))) (u : SourceUnit) (fixes : Bool) :
    (u.lint inspect fixes).onFailures f = (u.lint inspect' fixes).onFailures f' := by
  obtain ⟨text, applied⟩ := draft_alike alike u fixes
  rw [lint, lint]
  -- whatever is reported in the end was found in a text that is the same on both sides
  simp only [draft_diagnostics, text, applied]
  split_ifs
  all_goals simp only [Outcome.onFailures, FileResult.onFailures, same]

end SourceUnit

/-! ## Severities -/

def Diagnostic.unrated (d : Diagnostic) : Diagnostic := { d with severity := .error }

def Failure.unrated (f : Failure) : Failure := { f with severity := .error }

theorem alike_of_unrated {found found' : List Diagnostic}
    (same : found.map Diagnostic.unrated = found'.map Diagnostic.unrated) : Alike found found' where
  faulty := by
    have both := congrArg (List.any · Diagnostic.isSyntax) same
    simp only [List.any_map] at both
    exact both
  fixes := by
    have both := congrArg (List.filterMap (·.fix)) same
    simp only [List.filterMap_map] at both
    exact both

theorem SourceUnit.place_unrated (u : SourceUnit) (found : List Diagnostic) :
    (u.place found).map Failure.unrated = (u.place (found.map Diagnostic.unrated)).map Failure.unrated := by
  simp only [SourceUnit.place, List.map_map]
  rfl

theorem RuleSetting.severity?_eq_none_iff {setting : RuleSetting} {default : Severity} :
    setting.severity? default = none ↔ setting = .off := by
  cases setting <;> simp [severity?]

namespace Linter

/-- What one rule says. -/
def said (l : Linter) (s : Subject) (rule : Rule) : List Diagnostic :=
  match l.severity? rule s.unit s.program.isSome with
  | none => []
  | some severity => (rule.check s).map (Remark.toDiagnostic rule severity)

theorem diagnose_eq (l : Linter) (s : Subject) : l.diagnose s = l.rules.flatMap (l.said s) := rfl

variable {l : Linter} {settings : List (Text × RuleSetting)} {rule : Rule} {s : Subject}

/-- The settings switch off the same rules of the linter. -/
def SwitchesAlike (l : Linter) (settings : List (Text × RuleSetting)) : Prop :=
  ∀ rule ∈ l.rules, ({ l with settings := settings } : Linter).setting rule = .off ↔ l.setting rule = .off

theorem severity?_eq_none_iff {u : SourceUnit} {typed : Bool} :
    l.severity? rule u typed = none ↔ (rule.typeAware && !typed) = true ∨
      (rule.sparesComponents && u.isComposite && !l.compositeBlankLines) = true ∨ l.setting rule = .off := by
  rw [severity?]
  split_ifs with untyped spared
  · simp [untyped]
  · simp [untyped, spared]
  · simp [untyped, spared, RuleSetting.severity?_eq_none_iff]

theorem said_unrated (alike : l.SwitchesAlike settings) (member : rule ∈ l.rules) :
    (({ l with settings := settings } : Linter).said s rule).map Diagnostic.unrated =
      (l.said s rule).map Diagnostic.unrated := by
  have silent : ({ l with settings := settings } : Linter).severity? rule s.unit s.program.isSome = none ↔
      l.severity? rule s.unit s.program.isSome = none := by
    rw [severity?_eq_none_iff, severity?_eq_none_iff, alike rule member]
  rw [said, said]
  cases rated : l.severity? rule s.unit s.program.isSome with
  | none => rw [silent.2 rated]
  | some severity =>
    cases rated' : ({ l with settings := settings } : Linter).severity? rule s.unit s.program.isSome with
    | none => simp [silent.1 rated'] at rated
    | some severity' =>
      simp only [List.map_map]
      rfl

theorem inspect_unrated (alike : l.SwitchesAlike settings) (program : Option Program) (v : SourceUnit) (t : Text) :
    (({ l with settings := settings } : Linter).inspect program v t).map Diagnostic.unrated =
      (l.inspect program v t).map Diagnostic.unrated := by
  have sorted (found : List Diagnostic) :
      (Sorting.sort (fun a b => Fixes.rangeLe a.span b.span) found).map Diagnostic.unrated =
        Sorting.sort (fun a b => Fixes.rangeLe a.span b.span) (found.map Diagnostic.unrated) := by
    apply Sorting.map_sort
    intro a b
    rfl
  rw [inspect, inspect]
  split_ifs with parses
  · rw [sorted, sorted, diagnose_eq, diagnose_eq, List.map_flatMap, List.map_flatMap]
    congr 1
    exact List.flatMap_congr fun rule member => said_unrated alike member
  · rfl

/-- Linters that switch off the same rules come to the same outcome but for the severities. -/
theorem lintUnit_unrated (alike : l.SwitchesAlike settings) (program : Option Program) (u : SourceUnit) :
    (({ l with settings := settings } : Linter).lintUnit program u).onFailures (List.map Failure.unrated) =
      (l.lintUnit program u).onFailures (List.map Failure.unrated) := by
  refine SourceUnit.lint_alike (fun v t => ?_) (fun w v t => ?_) u l.fixes
  · exact alike_of_unrated (inspect_unrated alike _ v t)
  · rw [SourceUnit.place_unrated, inspect_unrated alike, ← SourceUnit.place_unrated]

end Linter

/-! ## Programs -/

namespace Linter

variable {l : Linter} {program : Option Program} {rule : Rule} {d : Diagnostic}

theorem rule_of_said {s : Subject} (member : d ∈ l.said s rule) : d.rule = rule.name := by
  rw [said] at member
  split at member
  · contradiction
  · obtain ⟨remark, -, rfl⟩ := List.mem_map.1 member
    rfl

theorem rule_of_fault {fault : TypeScript.Fault} : (faultDiagnostic fault).rule ≠ UnresolvedImports.rule.name := by
  change Diagnostic.syntaxRule ≠ UnresolvedImports.rule.name
  decide

/-- Unresolved imports are not fixed. -/
theorem fix_of_unresolved {s : Subject} (member : d ∈ l.said s UnresolvedImports.rule) : d.fix = none := by
  rw [said] at member
  split at member
  · contradiction
  · obtain ⟨remark, found, rfl⟩ := List.mem_map.1 member
    change remark ∈ UnresolvedImports.check s at found
    rw [UnresolvedImports.check] at found
    split at found
    · contradiction
    · obtain ⟨located, -, said⟩ := List.mem_filterMap.1 found
      rw [UnresolvedImports.remark?] at said
      split at said
      · obtain rfl := Option.some.inj said
        rfl
      · obtain rfl := Option.some.inj said
        rfl
      · contradiction

theorem eq_unresolved (known : rule ∈ Rule.recommended) (named : rule.name = UnresolvedImports.rule.name) :
    rule = UnresolvedImports.rule := by
  simp only [Rule.recommended, List.mem_cons, List.not_mem_nil, or_false] at known
  rcases known with rfl | rfl | rfl
  · exact absurd named (by decide)
  · exact absurd named (by decide)
  · rfl

/-- Without a program, of the rules there are only those speak that do not look at it, and they say the same. -/
theorem said_untyped (known : rule ∈ Rule.recommended) (source : Text) (u : SourceUnit) (script : TypeScript.Module) :
    l.said ⟨source, u, none, script⟩ rule =
      (l.said ⟨source, u, program, script⟩ rule).filter (·.rule ≠ UnresolvedImports.rule.name) := by
  simp only [Rule.recommended, List.mem_cons, List.not_mem_nil, or_false] at known
  rcases known with rfl | rfl | rfl
  · have same : l.said ⟨source, u, none, script⟩ UnusedImports.rule =
        l.said ⟨source, u, program, script⟩ UnusedImports.rule := rfl
    rw [same, List.filter_eq_self.2]
    intro d member
    rw [rule_of_said member]
    decide
  · have same : l.said ⟨source, u, none, script⟩ BlankLines.rule =
        l.said ⟨source, u, program, script⟩ BlankLines.rule := rfl
    rw [same, List.filter_eq_self.2]
    intro d member
    rw [rule_of_said member]
    decide
  · have silent : l.said ⟨source, u, none, script⟩ UnresolvedImports.rule = [] := rfl
    rw [silent, List.filter_eq_nil_iff.2]
    intro d member
    rw [rule_of_said member]
    decide

theorem inspect_untyped (known : ∀ rule ∈ l.rules, rule ∈ Rule.recommended) (program : Option Program)
    (v : SourceUnit) (t : Text) :
    l.inspect none v t = (l.inspect program v t).filter (·.rule ≠ UnresolvedImports.rule.name) := by
  rw [inspect, inspect]
  split_ifs with parses
  · rw [Sorting.filter_sort (fun a b => Fixes.rangeLe_total a.span b.span)
      (fun a b c => Fixes.rangeLe_trans a.span b.span c.span), diagnose_eq, diagnose_eq, List.filter_flatMap]
    congr 1
    exact List.flatMap_congr fun rule member => said_untyped (known rule member) t v _
  · rw [List.filter_eq_self.2]
    intro d member
    obtain ⟨fault, -, rfl⟩ := List.mem_map.1 member
    exact decide_eq_true rule_of_fault

/-- What is left out without a program has no fix and is no syntax fault. -/
theorem idle_of_unresolved (known : ∀ rule ∈ l.rules, rule ∈ Rule.recommended) {v : SourceUnit} {t : Text}
    (member : d ∈ l.inspect program v t) (named : d.rule = UnresolvedImports.rule.name) :
    d.fix = none ∧ d.isSyntax = false := by
  refine ⟨?_, by rw [Diagnostic.isSyntax, named]; decide⟩
  rw [inspect] at member
  split_ifs at member with parses
  · rw [Sorting.mem_sort, diagnose_eq, List.mem_flatMap] at member
    obtain ⟨rule, among, said⟩ := member
    obtain rfl := eq_unresolved (known rule among) ((rule_of_said said).symm.trans named)
    exact fix_of_unresolved said
  · obtain ⟨fault, -, rfl⟩ := List.mem_map.1 member
    exact absurd named rule_of_fault

/-- Without a program a unit comes to the same outcome but for the failures of unresolved imports. -/
theorem lintUnit_untyped (known : ∀ rule ∈ l.rules, rule ∈ Rule.recommended) (program : Option Program)
    (u : SourceUnit) : l.lintUnit none u =
      (l.lintUnit program u).onFailures (List.filter (·.rule ≠ UnresolvedImports.rule.name)) := by
  have whole : l.lintUnit none u = (l.lintUnit none u).onFailures id := rfl
  rw [whole]
  refine SourceUnit.lint_alike (fun v t => ?_) (fun w v t => ?_) u l.fixes
  · rw [programFor, Option.filter_none, inspect_untyped known (programFor program u)]
    exact alike_filter fun d member dropped => idle_of_unresolved known member (by simpa using dropped)
  · rw [programFor, Option.filter_none, inspect_untyped known (programFor program u)]
    simp only [SourceUnit.place, List.filter_map]
    rfl

/-- With settings that switch off the same rules, a unit is linted with the same writes of the same text, the same
document and number of fixes, and the same failures but for their severities. With the built-in rules, a unit is linted
without a program as it is with one, but that the failures of unresolved imports are left out. This holds of what comes of
any writer, too, and however the linter reads scripts. -/
theorem lintUnit_indifferent (l : Linter) (u : SourceUnit) :
    (∀ settings, l.SwitchesAlike settings → ∀ program,
      let l' : Linter := { l with settings := settings }
      let unrated : List Failure → List Failure := List.map Failure.unrated
      (l'.lintUnit program u).onFailures unrated = (l.lintUnit program u).onFailures unrated ∧
        ∀ (σ : Type) (path : Path) (write : FileWriter σ) (files : σ),
          Outcome.reported unrated ((l'.lintUnit program u).deliver path write files) =
            Outcome.reported unrated ((l.lintUnit program u).deliver path write files)) ∧
      ((∀ rule ∈ l.rules, rule ∈ Rule.recommended) → ∀ program,
        let untyped : List Failure → List Failure := List.filter (·.rule ≠ "no-unresolved-imports")
        l.lintUnit none u = (l.lintUnit (some program) u).onFailures untyped ∧
          ∀ (σ : Type) (path : Path) (write : FileWriter σ) (files : σ),
            (l.lintUnit none u).deliver path write files =
              Outcome.reported untyped ((l.lintUnit (some program) u).deliver path write files)) := by
  refine ⟨fun settings alike program => ?_, fun known program => ?_⟩
  · have same := lintUnit_unrated alike program u
    refine ⟨same, fun σ path write files => ?_⟩
    rw [← Outcome.deliver_onFailures, ← Outcome.deliver_onFailures, same]
  · have same := lintUnit_untyped known (some program) u
    refine ⟨same, fun σ path write files => ?_⟩
    rw [same, Outcome.deliver_onFailures]
    rfl

theorem lintUnit_indifferent_gone :
    let l : Linter := {}
    let settings : List (Text × RuleSetting) :=
      [("no-unresolved-imports".toList, .severity .warning), ("no-consecutive-blank-lines".toList, .severity .error)]
    let u : SourceUnit := ⟨⟨"/p/a.ts".toList⟩, "import a from './gone'\n\n\na()\n".toList, .ts, none⟩
    let program := Program.ofUnits .scan (.ofTable ⟨"/p".toList⟩ none) (.ofLists [] []) [u]
    let written := some "import a from './gone'\n\na()\n".toList
    l.SwitchesAlike settings ∧ (∀ rule ∈ l.rules, rule ∈ Rule.recommended) ∧
      (l.lintUnit (some program) u).written = written ∧
      (l.lintUnit (some program) u).result.failures.map (·.rule) = ["no-unresolved-imports"] ∧
      (({ l with settings := settings } : Linter).lintUnit (some program) u).written = written ∧
      (l.lintUnit none u).written = written ∧ (l.lintUnit none u).result.failures = [] := by
  intro l settings u program written
  have alike : l.SwitchesAlike settings := by
    rw [SwitchesAlike]
    decide
  have known : ∀ rule ∈ l.rules, rule ∈ Rule.recommended := fun _ member => member
  have now : (l.lintUnit (some program) u).written = written ∧
      (l.lintUnit (some program) u).result.failures.map (·.rule) = ["no-unresolved-imports"] := by decide +kernel
  obtain ⟨rated, -⟩ := (lintUnit_indifferent l u).1 settings alike (some program)
  obtain ⟨untyped, -⟩ := (lintUnit_indifferent l u).2 known program
  -- nothing below looks into the outcomes, which are costly to evaluate
  generalize l.lintUnit (some program) u = typed at now rated untyped ⊢
  generalize ({ l with settings := settings } : Linter).lintUnit (some program) u = rerated at rated ⊢
  obtain ⟨text, rules⟩ := now
  refine ⟨alike, known, text, rules, ?_, ?_, ?_⟩
  · have same := congrArg Outcome.written rated
    rwa [Outcome.onFailures_written, Outcome.onFailures_written, text] at same
  · rw [untyped]
    exact text
  · rw [untyped]
    refine List.filter_eq_nil_iff.2 fun f member => ?_
    have named : f.rule ∈ typed.result.failures.map (·.rule) := List.mem_map_of_mem member
    rw [rules, List.mem_singleton] at named
    simp [named]

end Linter

end ComponentLint
