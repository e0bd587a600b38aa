import ComponentLint.Lint.UnresolvedImports
import ComponentLint.Proofs.Path.Normal
import Mathlib.Data.List.Nodup

/-! Diagnosing a version of a unit with what the program already knows. A linked unit answers for the specifiers
that its text asks for, whatever the order and the number of the requests, and what a specifier means depends on
the paths of the units but not on their texts. So an edit that asks for nothing new is judged as if the program
had been linked again; only a unit that asks for itself could tell, for its own exports are those of the old text. -/
namespace ComponentLint

namespace Program

/-! ## One unit -/

theorem record_requests (read : Reader) (u : SourceUnit) : (record read u).requests = (read u.text u.kind).requests := by
  rw [record]
  split <;> rfl

theorem record_faults (read : Reader) (u : SourceUnit) : (record read u).faults = (read u.text u.kind).faults := by
  rw [record]
  split <;> rfl

theorem link_record (search : Search) (r : Resolver) (read : Reader) (u : SourceUnit) :
    (link search r read u).record = record read u :=
  rfl

/-- Of several requests with one specifier the first is looked up, and all of them mean the same. -/
theorem findSome?_zip_map (requests : List Request) (meaning : Text → Option Path) (specifier : Text) :
    ((requests.zip (requests.map (meaning ·.specifier))).findSome? fun (request, target) =>
      if request.specifier = specifier then some target else none) =
      if ∃ q ∈ requests, q.specifier = specifier then some (meaning specifier) else none := by
  induction requests with
  | nil => simp
  | cons q requests ih =>
    rw [List.map_cons, List.zip_cons_cons, List.findSome?_cons]
    by_cases here : q.specifier = specifier
    · simp [here]
    · simp only [here, if_false, ih, List.mem_cons, exists_eq_or_imp, false_or]

theorem targetOf?_link (search : Search) (r : Resolver) (read : Reader) (u : SourceUnit) (specifier : Text) :
    (link search r read u).targetOf? specifier =
      if ∃ q ∈ (read u.text u.kind).requests, q.specifier = specifier then some (search.resolve r specifier u.path)
      else none := by
  rw [← record_requests]
  exact findSome?_zip_map _ (search.resolve r · u.path) specifier

/-- A diagnosis depends on the faults of a reading and on what is found for each of its requests. -/
theorem diagnoseUnit_congr {p p' : Program} {u u' : LinkedUnit} {record record' : ModuleRecord}
    (faults : record.faults = record'.faults) (requests : record.requests = record'.requests)
    (judged : ∀ q ∈ record.requests, p.judgeIn u q = p'.judgeIn u' q) :
    p.diagnoseUnit u record = p'.diagnoseUnit u' record' := by
  rw [diagnoseUnit, diagnoseUnit, ← faults, ← requests, List.flatMap_congr judged]

theorem diagnoseUnit_record (p : Program) (u : LinkedUnit) (read : Reader) (v : SourceUnit) :
    p.diagnoseUnit u (record read v) = p.diagnoseUnit u (read v.text v.kind) :=
  diagnoseUnit_congr (record_faults read v) (record_requests read v) fun _ _ => rfl

/-- Of a program, a request needs to know what stands at the place that it means. -/
theorem judge_congr {p p' : Program} {target : Option Path} (q : Request)
    (same : ∀ place, target = some place → p.at? place = p'.at? place) : p.judge q target = p'.judge q target := by
  cases target with
  | none => rfl
  | some place => rw [judge, judge, same place rfl]

/-! ## The units of a program -/

section

variable (read : Reader) (r : Resolver) (host : SourceHost) {before after : List SourceUnit} {u : SourceUnit}

theorem at?_ofUnits (units : List SourceUnit) (place : Path) :
    (ofUnits read r host units).at? place =
      (units.reverse.find? (·.path.same place)).map (link ⟨host, units.map (·.path)⟩ r read) := by
  rw [at?, ofUnits, ← List.map_reverse, List.find?_map]
  rfl

/-- A unit that has its path to itself is what stands there. -/
theorem get?_ofUnits (distinct : ((before ++ u :: after).map (·.path.normalize)).Nodup) :
    (ofUnits read r host (before ++ u :: after)).get? u.path =
      if u.path.same u.path.normalize then some (link ⟨host, (before ++ u :: after).map (·.path)⟩ r read u)
      else none := by
  have alone : ∀ v ∈ before ++ after, v.path.same u.path.normalize = false := by
    intro v member
    refine Bool.eq_false_iff.2 fun same => ?_
    rw [List.map_append, List.map_cons, List.nodup_middle, List.nodup_cons, ← List.map_append] at distinct
    exact distinct.1 (List.mem_map.2 ⟨v, member, Path.normalize_eq_of_same same⟩)
  have found : (before ++ u :: after).reverse.find? (·.path.same u.path.normalize) =
      if u.path.same u.path.normalize then some u else none := by
    have left : before.reverse.find? (·.path.same u.path.normalize) = none :=
      List.find?_eq_none.2 fun v member => by simp [alone v (by simp at member; simp [member])]
    have right : after.reverse.find? (·.path.same u.path.normalize) = none :=
      List.find?_eq_none.2 fun v member => by simp [alone v (by simp at member; simp [member])]
    rw [List.reverse_append, List.reverse_cons, List.append_assoc, List.find?_append, List.find?_append, left, right,
      List.find?_singleton]
    split <;> rfl
  rw [get?, at?_ofUnits, found]
  split <;> rfl

/-- Other places do not see that the text of a unit is replaced. -/
theorem at?_edited {place : Path} (other : u.path.same place = false) (t : Text) :
    (ofUnits read r host (before ++ { u with text := t } :: after)).at? place =
      (ofUnits read r host (before ++ u :: after)).at? place := by
  rw [at?_ofUnits, at?_ofUnits]
  simp [List.find?_append, other]

/-- A request that both texts make is judged in the old program as it is in the new one. -/
theorem judgeIn_edited {t : Text} {q : Request} (asks : q ∈ (read t u.kind).requests)
    (asked : ∃ q' ∈ (read u.text u.kind).requests, q'.specifier = q.specifier)
    (elsewhere : ∀ target, Search.resolve ⟨host, (before ++ u :: after).map (·.path)⟩ r q.specifier u.path = some target →
      u.path.same target = false) :
    (ofUnits read r host (before ++ u :: after)).judgeIn
        (link ⟨host, (before ++ u :: after).map (·.path)⟩ r read u) q =
      (ofUnits read r host (before ++ { u with text := t } :: after)).judgeIn
        (link ⟨host, (before ++ { u with text := t } :: after).map (·.path)⟩ r read { u with text := t }) q := by
  have paths : (before ++ { u with text := t } :: after).map (·.path) = (before ++ u :: after).map (·.path) := by simp
  rw [judgeIn, judgeIn, targetOf?_link, targetOf?_link, if_pos asked, if_pos ⟨q, asks, rfl⟩, paths]
  exact judge_congr q fun place means => (at?_edited read r host (elsewhere place means) t).symm

/-- Reading a loaded text again finds what was found in it. -/
theorem diagnose_own (distinct : ((before ++ u :: after).map (·.path.normalize)).Nodup) :
    (ofUnits read r host (before ++ u :: after)).diagnose u.path (read u.text u.kind) =
      (ofUnits read r host (before ++ u :: after)).diagnostics u.path := by
  rw [diagnose, diagnostics, get?_ofUnits read r host distinct]
  cases u.path.same u.path.normalize with
  | false => rfl
  | true => exact (diagnoseUnit_record _ _ read u).symm

/-- In a program whose units have paths of their own, a new version of a unit is diagnosed as it would be after
linking all units again, if it asks for nothing new and not for itself; the loaded version always is. Paths are
looked up in their normal form, which is the one that a unit keeps: of such paths it is enough that they differ. -/
theorem diagnose_rebuilt (distinct : ((before ++ u :: after).map (·.path.normalize)).Nodup) :
    (∀ t : Text,
      (∀ q ∈ (read t u.kind).requests, ∃ q' ∈ (read u.text u.kind).requests, q'.specifier = q.specifier) →
      (∀ q ∈ (read t u.kind).requests, ∀ target,
        Search.resolve ⟨host, (before ++ u :: after).map (·.path)⟩ r q.specifier u.path = some target →
          u.path.same target = false) →
      (ofUnits read r host (before ++ u :: after)).diagnose u.path (read t u.kind) =
        (ofUnits read r host (before ++ { u with text := t } :: after)).diagnostics u.path) ∧
    (ofUnits read r host (before ++ u :: after)).diagnose u.path (read u.text u.kind) =
      (ofUnits read r host (before ++ u :: after)).diagnostics u.path := by
  refine ⟨fun t asked elsewhere => ?_, diagnose_own read r host distinct⟩
  have edited : ((before ++ { u with text := t } :: after).map (·.path.normalize)).Nodup := by simpa using distinct
  rw [diagnose, diagnostics, get?_ofUnits read r host distinct, get?_ofUnits read r host edited]
  cases u.path.same u.path.normalize with
  | false => rfl
  | true =>
    simp only [if_true, link_record]
    rw [diagnoseUnit_record]
    exact diagnoseUnit_congr rfl rfl fun q asks => judgeIn_edited read r host asks (asked q asks) (elsewhere q asks)

end

theorem diagnose_rebuilt_project :
    let util : SourceUnit := ⟨⟨"/p/util.ts".toList⟩, "export const helper = 1\n".toList, .ts, none⟩
    let main : SourceUnit :=
      ⟨⟨"/p/main.ts".toList⟩, "import \x7b helper \x7d from './util'\nimport gone from './gone'\n".toList, .ts, none⟩
    let edited : Text := "import gone from './gone'\nimport \x7b other \x7d from './util'\n".toList
    let r : Resolver := .ofTable ⟨"/p".toList⟩ none
    let host : SourceHost := .ofLists [] []
    (ofUnits .scan r host [util, main]).diagnose main.path (.scan edited .ts) =
        (ofUnits .scan r host [util, { main with text := edited }]).diagnostics main.path ∧
      ((ofUnits .scan r host [util, main]).diagnose main.path (.scan edited .ts)).map (·.finding) =
        [.unresolved "./gone".toList, .missing "./util".toList "other".toList] ∧
      (ofUnits .scan r host [util, main]).diagnose main.path (.scan main.text .ts) =
        (ofUnits .scan r host [util, main]).diagnostics main.path := by
  intro util main edited r host
  have distinct : (([util] ++ main :: []).map (·.path.normalize)).Nodup := by decide +kernel
  obtain ⟨rebuilt, own⟩ := diagnose_rebuilt .scan r host distinct
  have elsewhere : ∀ q ∈ (ModuleRecord.scan edited .ts).requests,
      ((Search.resolve ⟨host, [util.path, main.path]⟩ r q.specifier main.path).all fun target =>
        !main.path.same target) = true := by decide +kernel
  refine ⟨rebuilt edited (by decide +kernel) fun q asks target means => ?_, by decide +kernel, own⟩
  have here := elsewhere q asks
  rw [show Search.resolve ⟨host, [util.path, main.path]⟩ r q.specifier main.path = some target from means] at here
  simpa using here

end Program

/-- Whether the rule finds the text loaded or reads it anew makes no difference to what it finds. -/
theorem UnresolvedImports.located_ofUnits (parse : TypeScript.Parsing) (r : Resolver) (host : SourceHost)
    {before after : List SourceUnit} {u : SourceUnit} (distinct : ((before ++ u :: after).map (·.path.normalize)).Nodup)
    {s : Subject} (path : s.unit.path = u.path) (script : s.script = parse u.kind s.source) :
    located (.ofUnits (.scanWith parse) r host (before ++ u :: after)) s =
      (Program.ofUnits (.scanWith parse) r host (before ++ u :: after)).diagnose u.path
        (.scanWith parse s.source u.kind) := by
  rw [located, path, script]
  split
  · rename_i loaded
    obtain ⟨v, found, same⟩ := (Option.any_eq_true _ _).1 loaded
    rw [Program.unit?, Program.get?_ofUnits (.scanWith parse) r host distinct] at found
    split at found
    · obtain rfl : u = v := by simpa [Program.link] using found
      rw [← Program.diagnose_own (ModuleRecord.scanWith parse) r host distinct, of_decide_eq_true same]
    · contradiction
  · rfl

end ComponentLint
