import ComponentLint.Proofs.Program.Rebuild

/-! What is found in a unit of a program is what there is to find. `toFind` lists it from the units alone, without
the links between them: the faults of the reading, the requests that mean nothing, and the names that are asked of a
unit whose exports are known and lack them. The diagnostics are this list in the order of the places, and what stands
at one place keeps the order of the list. -/
namespace ComponentLint

section Records

/-- A component has a default export, and without a script it may have any. -/
theorem ModuleRecord.inComponent_exports (m : ModuleRecord) (text : Text) :
    "default".toList ∈ (m.inComponent text).exports.names ∧
      (text = [] → (m.inComponent text).exports.isOpen = true) := by
  have inserted : "default".toList ∈ (m.exports.insert "default".toList).names := Exports.mem_insert_iff.2 (.inr rfl)
  by_cases empty : text = []
  · simp only [inComponent, empty, if_true, Exports.opened]
    exact ⟨inserted, fun _ => trivial⟩
  · simp only [inComponent, empty, if_false]
    exact ⟨inserted, fun none_ => none_.elim⟩

end Records

namespace Program

section

variable (read : Reader) (r : Resolver) (host : SourceHost) (units : List SourceUnit)

/-! ## What there is to find -/

/-- What a specifier means in a unit, where all units count as existing files. -/
def meaning (u : SourceUnit) (specifier : Text) : Option Path :=
  Search.resolve ⟨host, units.map (·.path)⟩ r specifier u.path

/-- A unit stands at the place, and its exports are known and lack the name. -/
def Lacks (place : Path) (name : Text) : Prop :=
  ∃ v ∈ units, v.path.same place = true ∧ (record read v).exports.isOpen = false ∧
    name ∉ (record read v).exports.names

instance (place : Path) (name : Text) : Decidable (Lacks read units place name) :=
  inferInstanceAs (Decidable (∃ v ∈ units, _ ∧ _ ∧ _))

/-- What there is to find about a request of a unit. -/
def toFindOf (u : SourceUnit) (q : Request) : List Located :=
  match meaning r host units u q.specifier with
  | none => [⟨.unresolved q.specifier, q.span⟩]
  | some place =>
    if q.kind = .dynamic then []
    else (q.names.filter fun wanted => Lacks read units place wanted.name).map fun wanted =>
      ⟨.missing q.specifier wanted.name, wanted.span⟩

/-- What there is to find in a unit: its faults, then what is wrong with its requests, one after another. -/
def toFind (u : SourceUnit) : List Located :=
  (read u.text u.kind).faults.map (fun f => ⟨.syntaxFault f.message, f.span⟩) ++
    (read u.text u.kind).requests.flatMap (toFindOf read r host units u)

/-! ## The units at a place -/

variable {read r host units} {u v : SourceUnit} {place : Path}

theorem eq_of_same (distinct : (units.map (·.path.components)).Nodup) (here : u ∈ units) (also : v ∈ units)
    (atU : u.path.same place = true) (atV : v.path.same place = true) : u = v := by
  apply List.inj_on_of_nodup_map distinct here also
  rw [of_decide_eq_true atU, of_decide_eq_true atV]

/-- Of units with paths of their own, the one that stands at a place is found there. -/
theorem at?_eq_some_iff (distinct : (units.map (·.path.components)).Nodup) {l : LinkedUnit} :
    (ofUnits read r host units).at? place = some l ↔
      ∃ v ∈ units, v.path.same place = true ∧ link ⟨host, units.map (·.path)⟩ r read v = l := by
  rw [at?_ofUnits, Option.map_eq_some_iff]
  constructor
  · rintro ⟨v, found, linked⟩
    have stands : v.path.same place = true := by simpa using List.find?_some found
    exact ⟨v, List.mem_reverse.1 (List.mem_of_find?_eq_some found), stands, linked⟩
  · rintro ⟨v, member, stands, linked⟩
    refine ⟨v, ?_, linked⟩
    cases found : units.reverse.find? (·.path.same place) with
    | none =>
      have absent := List.find?_eq_none.1 found v (List.mem_reverse.2 member)
      contradiction
    | some v' =>
      have stands' : v'.path.same place = true := by simpa using List.find?_some found
      have member' := List.mem_reverse.1 (List.mem_of_find?_eq_some found)
      rw [eq_of_same distinct member' member stands' stands]

theorem lacks_iff (distinct : (units.map (·.path.components)).Nodup) (member : v ∈ units)
    (stands : v.path.same place = true) {name : Text} :
    Lacks read units place name ↔ (record read v).exports.contains name = false := by
  have closed : (record read v).exports.contains name = false ↔
      (record read v).exports.isOpen = false ∧ name ∉ (record read v).exports.names := by
    simp [Exports.contains]
  rw [closed]
  constructor
  · rintro ⟨v', member', stands', lacks⟩
    rwa [eq_of_same distinct member' member stands' stands] at lacks
  · intro lacks
    exact ⟨v, member, stands, lacks⟩

/-- A component lacks no default export, and without a script it lacks nothing. -/
theorem lacks_component (distinct : (units.map (·.path.components)).Nodup) (member : v ∈ units)
    (stands : v.path.same place = true) (composite : v.isComposite = true) {name : Text}
    (lacks : Lacks read units place name) : name ≠ "default".toList ∧ v.text ≠ [] := by
  obtain ⟨v', member', stands', closed, absent⟩ := lacks
  obtain rfl := eq_of_same distinct member' member stands' stands
  obtain ⟨default, opened⟩ := (read v'.text v'.kind).inComponent_exports v'.text
  simp only [record, composite, if_true] at closed absent
  constructor
  · rintro rfl
    exact absent default
  · intro empty
    rw [opened empty] at closed
    contradiction

/-! ## What is found -/

/-- A request is judged as the units say. -/
theorem judge_meaning (distinct : (units.map (·.path.components)).Nodup) (u : SourceUnit) (q : Request) :
    (ofUnits read r host units).judge q (meaning r host units u q.specifier) = toFindOf read r host units u q := by
  rw [toFindOf]
  cases meaning r host units u q.specifier with
  | none => rfl
  | some place =>
    rw [judge]
    dsimp only
    cases found : (ofUnits read r host units).at? place with
    | none =>
      have nothing (wanted : WantedName) : ¬Lacks read units place wanted.name := by
        rintro ⟨v, member, stands, -⟩
        have there : (ofUnits read r host units).at? place = some (link ⟨host, units.map (·.path)⟩ r read v) :=
          (at?_eq_some_iff distinct).2 ⟨v, member, stands, rfl⟩
        rw [found] at there
        contradiction
      simp [nothing]
    | some l =>
      obtain ⟨v, member, stands, rfl⟩ := (at?_eq_some_iff distinct).1 found
      have verdict (wanted : WantedName) :
          (!(record read v).exports.contains wanted.name) = decide (Lacks read units place wanted.name) := by
        rw [Bool.eq_iff_iff, decide_eq_true_iff, lacks_iff distinct member stands, Bool.not_eq_true']
      simp only [link_record, missingNames, verdict]

/-- The diagnostics of a unit are what there is to find in it, in the order of the places. -/
theorem diagnostics_eq (distinct : (units.map (·.path.components)).Nodup) (member : u ∈ units) {path : Path}
    (spelled : u.path.same path.normalize = true) :
    (ofUnits read r host units).diagnostics path =
      Sorting.sort (fun a b => decide (a.span.start ≤ b.span.start)) (toFind read r host units u) := by
  have found : (ofUnits read r host units).get? path = some (link ⟨host, units.map (·.path)⟩ r read u) :=
    (at?_eq_some_iff distinct).2 ⟨u, member, spelled, rfl⟩
  have judged : ∀ q ∈ (read u.text u.kind).requests,
      (ofUnits read r host units).judgeIn (link ⟨host, units.map (·.path)⟩ r read u) q =
        toFindOf read r host units u q := by
    intro q asks
    rw [judgeIn, targetOf?_link, if_pos ⟨q, asks, rfl⟩]
    exact judge_meaning distinct u q
  simp only [diagnostics, found, diagnoseUnit, link_record, record_faults, record_requests, toFind,
    List.flatMap_congr judged]

/-- A name is found missing only where its module is a unit that lacks it. -/
theorem lacks_of_mem_toFind {specifier name : Text} {span : Span}
    (found : ⟨.missing specifier name, span⟩ ∈ toFind read r host units u)
    (means : meaning r host units u specifier = some place) : Lacks read units place name := by
  rcases List.mem_append.1 found with fault | wrong
  · obtain ⟨f, -, other⟩ := List.mem_map.1 fault
    simp at other
  · obtain ⟨q, -, wrong⟩ := List.mem_flatMap.1 wrong
    rw [toFindOf] at wrong
    cases here : meaning r host units u q.specifier with
    | none => simp [here] at wrong
    | some place' =>
      simp only [here] at wrong
      split_ifs at wrong
      · simp at wrong
      · obtain ⟨wanted, lacks, same⟩ := List.mem_map.1 wrong
        obtain ⟨rfl, rfl⟩ : q.specifier = specifier ∧ wanted.name = name := by simpa using congrArg Located.finding same
        obtain rfl := Option.some.inj (here.symm.trans means)
        simpa using (List.mem_filter.1 lacks).2

/-- The diagnostics of a unit, asked for by any spelling of its path (the unit has it in normal form), are sound and
complete: each finding that there is to find comes as often as it is to be found, and no other. They stand in the order
of their places, and at one place the faults come first and then the requests in their order. No component is said to
have no default export, and nothing is said to be missing from one without a script. -/
theorem diagnostics_exact (distinct : (units.map (·.path.components)).Nodup) (member : u ∈ units) {path : Path}
    (spelled : u.path.same path.normalize = true) :
    let found := (ofUnits read r host units).diagnostics path
    found.Perm (toFind read r host units u) ∧
      (found.Pairwise fun a b => a.span.start ≤ b.span.start) ∧
      (∀ start, found.filter (·.span.start = start) = (toFind read r host units u).filter (·.span.start = start)) ∧
      ∀ specifier name span place, ⟨.missing specifier name, span⟩ ∈ found →
        meaning r host units u specifier = some place → ∀ v ∈ units, v.path.same place = true → v.isComposite = true →
          name ≠ "default".toList ∧ v.text ≠ [] := by
  intro found
  have sorted : found = Sorting.sort (fun a b => decide (a.span.start ≤ b.span.start)) (toFind read r host units u) :=
    diagnostics_eq distinct member spelled
  have perm : found.Perm (toFind read r host units u) := by
    rw [sorted]
    exact Sorting.sort_perm _ _
  refine ⟨perm, ?_, fun start => ?_, fun specifier name span place missing means v inside stands composite => ?_⟩
  · rw [sorted]
    apply List.Pairwise.imp of_decide_eq_true
    apply Sorting.sort_pairwise
    · intro a b
      simp only [decide_eq_true_eq]
      omega
    · intro a b c
      simp only [decide_eq_true_eq]
      omega
  · rw [sorted]
    apply Sorting.sort_filter
    intro a b atA atB
    rw [decide_eq_true_eq] at atA atB ⊢
    omega
  · exact lacks_component distinct inside stands composite (lacks_of_mem_toFind (perm.mem_iff.1 missing) means)

theorem diagnostics_exact_project :
    let util : SourceUnit := ⟨⟨"/p/u.ts".toList⟩, "export const yes = 1\n".toList, .ts, none⟩
    let plain : SourceUnit := ⟨⟨"/p/A.vue".toList⟩, [], .ts, some ⟨"<p/>".toList, 0⟩⟩
    let main : SourceUnit := ⟨⟨"/p/main.ts".toList⟩,
      "import A, \x7b x \x7d from './A.vue'\nimport './gone'\nimport \x7b no, yes \x7d from './u'\n".toList, .ts, none⟩
    let r : Resolver := .ofTable ⟨"/p".toList⟩ none
    let host : SourceHost := .ofLists [] []
    let found := (ofUnits .scan r host [util, plain, main]).diagnostics ⟨"/p/./main.ts".toList⟩
    found.map (·.finding) = [.unresolved "./gone".toList, .missing "./u".toList "no".toList] ∧
      found.Perm (toFind .scan r host [util, plain, main] main) ∧
      found.Pairwise fun a b => a.span.start ≤ b.span.start := by
  intro util plain main r host found
  obtain ⟨perm, ordered, -, -⟩ := @diagnostics_exact .scan r host [util, plain, main] main (by decide +kernel)
    (by simp) ⟨"/p/./main.ts".toList⟩ (by decide +kernel)
  exact ⟨by decide +kernel, perm, ordered⟩

end

end Program

end ComponentLint
