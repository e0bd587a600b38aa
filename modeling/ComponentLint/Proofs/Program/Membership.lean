import ComponentLint.Proofs.Program.Rebuild
import ComponentLint.Proofs.Resolution.Spelling
import ComponentLint.Proofs.Run.Sources

/-! What a program has and what its diagnoses look into. A program has a place by its normal form, in any spelling;
a diagnosis looks for the module of a request as the resolution spells it. So the two agree on the modules that are
spelled without climbing, which those of plain specifiers are, and the names asked of a module that is spelled with a
`..` are asked of nothing. -/
namespace ComponentLint.Program

/-- The names of a request that its module, at a place, is known not to export are found missing. -/
def FindsMissing (p : Program) (path : Path) (q : Request) (place : Path) : Prop :=
  ∀ e ∈ p.exports? place, ∀ wanted ∈ q.names, e.contains wanted.name = false →
    ⟨.missing q.specifier wanted.name, wanted.span⟩ ∈ p.diagnostics path

section

variable {read : Reader} {r : Resolver} {host : SourceHost} {units : List SourceUnit} {p : Program} {path place : Path}

theorem at?_linked (linked : p.units = (ofUnits read r host units).units) (place : Path) :
    p.at? place = (ofUnits read r host units).at? place := by rw [at?, at?, linked]

/-- What stands at a place is a unit, linked by its own requests. -/
theorem of_at? (linked : p.units = (ofUnits read r host units).units) {l : LinkedUnit} (h : p.at? place = some l) :
    ∃ v ∈ units, v.path.same place = true ∧ link ⟨host, units.map (·.path)⟩ r read v = l := by
  rw [at?_linked linked, at?_ofUnits] at h
  obtain ⟨v, found, linked⟩ := Option.map_eq_some_iff.1 h
  have stands : v.path.same place = true := by simpa using List.find?_some found
  exact ⟨v, List.mem_reverse.1 (List.mem_of_find?_eq_some found), stands, linked⟩

/-- A program that is built from a tree is linked from units whose paths are in normal form. -/
theorem build_linked {tree : FileTree} {c : TsConfig} {shelf : Component.Shelf}
    (built : build read tree {} c = .ok (p, shelf)) :
    ∃ units, p.units = (ofUnits read p.resolver (.ofTree tree) units).units ∧
      ∀ v ∈ units, v.path.same v.path.normalize = true := by
  rw [build] at built
  obtain ⟨files, -, built⟩ := bind_eq_ok_iff.1 built
  obtain ⟨rfl, -⟩ := Prod.mk.inj (Except.ok.inj built)
  have empty : Component.Shelf.Faithful {} tree := fun f member => by simp at member
  obtain ⟨-, faithful⟩ := readAll_faithful empty files
  refine ⟨_, rfl, fun v member => ?_⟩
  rw [(faithful v member).1]
  exact decide_eq_true rfl

/-- A place that is spelled without climbing is looked up in its normal form. -/
theorem get?_eq_at? (absolute : place.isAbsolute = true) (flat : ¬place.Climbs) : p.get? place = p.at? place := by
  have normal : place.components = place.normalize.components :=
    of_decide_eq_true ((Path.same_normalize_iff absolute).2 flat)
  simp only [get?, at?, Path.same, normal]

/-- Where the paths of all units are in normal form, nothing stands at a place that is spelled with a `..`. -/
theorem at?_climbing (linked : p.units = (ofUnits read r host units).units)
    (normal : ∀ v ∈ units, v.path.same v.path.normalize = true) (absolute : place.isAbsolute = true)
    (climbs : place.Climbs) : p.at? place = none := by
  rw [Option.eq_none_iff_forall_ne_some]
  intro l found
  obtain ⟨v, member, stands, -⟩ := of_at? linked found
  have components : v.path.components = place.components := of_decide_eq_true stands
  have folded : place.same place.normalize = true := by
    have own := normal v member
    rwa [Path.same, Path.normalize, components, ← Path.normalize, ← Path.same] at own
  exact (Path.same_normalize_iff absolute).1 folded climbs

variable {q : Request}

/-- A request of a unit means what its specifier resolves to from the path of the unit. -/
theorem of_resolveImport (linked : p.units = (ofUnits read r host units).units)
    (asks : ∃ requests ∈ p.requests? path, q ∈ requests) (means : p.resolveImport path q.specifier = some place) :
    ∃ v ∈ units, v.path.same path.normalize = true ∧ q ∈ (record read v).requests ∧
      Search.resolve ⟨host, units.map (·.path)⟩ r q.specifier v.path = some place ∧
      p.get? path = some (link ⟨host, units.map (·.path)⟩ r read v) := by
  obtain ⟨requests, known, member⟩ := asks
  obtain ⟨l, found, rfl⟩ := Option.map_eq_some_iff.1 known
  obtain ⟨v, inside, stands, rfl⟩ := of_at? linked found
  refine ⟨v, inside, stands, member, ?_, found⟩
  rw [link_record, record_requests] at member
  rw [resolveImport, found, Option.bind_some, targetOf?_link, if_pos ⟨q, member, rfl⟩] at means
  exact means

/-- The names that a module lacks are found missing where the module is found as it is spelled. -/
theorem finds_of_at? (linked : p.units = (ofUnits read r host units).units)
    (asks : ∃ requests ∈ p.requests? path, q ∈ requests) (static : q.kind ≠ .dynamic)
    (means : p.resolveImport path q.specifier = some place) (same : p.get? place = p.at? place) :
    p.FindsMissing path q place := by
  intro e exported wanted asked lacks
  obtain ⟨v, -, -, member, resolved, found⟩ := of_resolveImport linked asks means
  obtain ⟨target, there, rfl⟩ := Option.map_eq_some_iff.1 exported
  rw [same] at there
  have own : ∃ q' ∈ (read v.text v.kind).requests, q'.specifier = q.specifier := by
    rw [record_requests] at member
    exact ⟨q, member, rfl⟩
  have missing : ⟨.missing q.specifier wanted.name, wanted.span⟩ ∈ missingNames q target.record.exports := by
    apply List.mem_map_of_mem
    apply List.mem_filter.2
    simp [asked, lacks]
  rw [diagnostics, found]
  apply Sorting.mem_sort.2
  apply List.mem_append_right
  apply List.mem_flatMap.2
  refine ⟨q, member, ?_⟩
  rw [judgeIn, targetOf?_link, if_pos own, resolved]
  simpa [judge, there, static] using missing

/-- A request of a unit, not one made at run time, that means a place inside the program. A plain specifier means a
place that is spelled without climbing. The names that the module at such a place lacks are found missing. Where the
paths of the units are in normal form, a place that is spelled with a `..` is not looked into. -/
theorem inside_judged (linked : p.units = (ofUnits read r host units).units)
    (asks : ∃ requests ∈ p.requests? path, q ∈ requests) (static : q.kind ≠ .dynamic)
    (means : p.resolveImport path q.specifier = some place) (absolute : place.isAbsolute = true)
    (inside : p.contains place = true) :
    (r.Plain q.specifier → ¬place.Climbs) ∧
      (¬place.Climbs → (∃ e, p.exports? place = some e) ∧ p.FindsMissing path q place) ∧
      ((∀ v ∈ units, v.path.same v.path.normalize = true) → place.Climbs → p.judge q (some place) = []) := by
  refine ⟨fun plain => ?_, fun flat => ⟨?_, ?_⟩, fun normal climbs => ?_⟩
  · obtain ⟨v, -, stands, -, resolved, -⟩ := of_resolveImport linked asks means
    exact Search.resolve_level (Path.level_of_same stands) plain resolved absolute
  · obtain ⟨target, there⟩ := Option.isSome_iff_exists.1 inside
    exact ⟨target.record.exports, by rw [exports?, there, Option.map_some]⟩
  · exact finds_of_at? linked asks static means (get?_eq_at? absolute flat)
  · rw [judge, at?_climbing linked normal absolute climbs]

end

/-- One file, asked for by an alias and by the name of a package that leads to it with a `..`. -/
theorem inside_judged_spellings :
    let u : SourceUnit := ⟨⟨"/p/node_modules/u.ts".toList⟩, "export const yes = 1\n".toList, .ts, none⟩
    let main : SourceUnit := ⟨⟨"/p/main.ts".toList⟩,
      "import \x7b no \x7d from '@/u'\nimport \x7b none \x7d from 'a/../u'\n".toList, .ts, none⟩
    let host : SourceHost := .ofTree ⟨[(["p".toList, "node_modules".toList, "a".toList], .directory),
      (["p".toList, "node_modules".toList, "u.ts".toList], .file (.text u.text))]⟩
    let p := ofUnits .scan (.ofRules ⟨"/p".toList⟩ [⟨['@'], some "node_modules".toList⟩]) host [u, main]
    let byAlias : Request := ⟨"@/u".toList, ⟨19, 24⟩, .imported, false, [⟨"no".toList, ⟨9, 11⟩⟩]⟩
    let byPackage : Request := ⟨"a/../u".toList, ⟨46, 54⟩, .imported, false, [⟨"none".toList, ⟨34, 38⟩⟩]⟩
    p.requests? main.path = some [byAlias, byPackage] ∧
      ⟨.missing "@/u".toList "no".toList, ⟨9, 11⟩⟩ ∈ p.diagnostics main.path ∧
      p.judge byPackage (some ⟨"/p/node_modules/a/../u.ts".toList⟩) = [] := by
  intro u main host p byAlias byPackage
  have asked : p.requests? main.path = some [byAlias, byPackage] := by decide +kernel
  have byAlias_means : p.resolveImport main.path byAlias.specifier = some u.path := by decide +kernel
  have byPackage_means : p.resolveImport main.path byPackage.specifier = some ⟨"/p/node_modules/a/../u.ts".toList⟩ := by
    decide +kernel
  have aliased := inside_judged (q := byAlias) rfl ⟨_, asked, by decide⟩ (by decide) byAlias_means (by decide)
    (by decide +kernel)
  have packaged := inside_judged (q := byPackage) rfl ⟨_, asked, by decide⟩ (by decide) byPackage_means (by decide)
    (by decide +kernel)
  refine ⟨asked, ?_, ?_⟩
  · obtain ⟨-, finds⟩ := aliased.2.1 (aliased.1 (by decide +kernel))
    exact finds ⟨["yes".toList], false⟩ (by decide +kernel) ⟨"no".toList, ⟨9, 11⟩⟩ (by decide) (by decide)
  · exact packaged.2.2 (by decide +kernel) (by decide +kernel)

/-- A program has the module that a package name leads to with a `..`, and nothing that it lacks is found missing. -/
theorem climbing_module_unchecked :
    let main : SourceUnit :=
      ⟨⟨"/project/main.ts".toList⟩, "import \x7b no \x7d from 'a/../b'\n".toList, .ts, none⟩
    let b : SourceUnit := ⟨⟨"/project/node_modules/b.ts".toList⟩, "export const yes = 1\n".toList, .ts, none⟩
    let packages : Place := ["project".toList, "node_modules".toList]
    let host : SourceHost := .ofTree ⟨[(["project".toList, "main.ts".toList], .file (.text main.text)),
      (packages ++ ["a".toList, "index.ts".toList], .file (.text [])),
      (packages ++ ["b.ts".toList], .file (.text b.text))]⟩
    let p := ofUnits .scan (.ofTable ⟨"/project".toList⟩ none) host [main, b]
    ¬∀ (path place : Path) (q : Request), (∃ requests ∈ p.requests? path, q ∈ requests) → q.kind ≠ .dynamic →
      p.resolveImport path q.specifier = some place → place.isAbsolute = true → p.contains place = true →
        p.FindsMissing path q place := by
  intro main b packages host p promised
  have finds := promised main.path ⟨"/project/node_modules/a/../b.ts".toList⟩
    ⟨"a/../b".toList, ⟨19, 27⟩, .imported, false, [⟨"no".toList, ⟨9, 11⟩⟩]⟩
    ⟨_, rfl, by decide +kernel⟩ (by decide) (by decide +kernel) (by decide) (by decide +kernel)
  have found := finds ⟨["yes".toList], false⟩ (by decide +kernel) ⟨"no".toList, ⟨9, 11⟩⟩ (by decide) (by decide)
  have nothing : p.diagnostics main.path = [] := by decide +kernel
  rw [nothing] at found
  contradiction

end ComponentLint.Program
