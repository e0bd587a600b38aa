import ComponentLint.Resolution.Alias
import ComponentLint.Proofs.Path.Joining

/-! Where an alias leads. What is behind the symbol of a rule is put behind the directory of the rule, and without a `..`
in it the candidate lies below that directory, by the names that it has. But for one that begins with a slash: this one
is an absolute path, which is taken for itself. -/
namespace ComponentLint.Resolver

variable {r : Resolver} {specifier rest : Text} {rule : AliasRule}

/-- The directory that the symbol of a rule stands for. -/
def directoryOf (r : Resolver) (rule : AliasRule) : Path :=
  r.baseDirectory.join ⟨rule.substitution.getD AliasRule.defaultDirectory⟩

theorem candidate_of_matched (matched : r.matchAlias specifier = some (rule, rest)) (importer : Path) :
    r.candidate specifier importer = ((r.directoryOf rule).join ⟨rest⟩).normalize := by
  rw [candidate, matched]
  rfl

/-- Where a rule of a resolver with an absolute base directory applies, and what is behind its symbol has no `..`, the
candidate does not depend on the importer: it is the directory of the rule, in normal form, with the segments of the
rest behind it that are neither empty nor a single dot. A rest that begins with a slash leaves that directory: there the
candidate is these segments behind the root. -/
theorem candidate_inside (absolute : r.baseDirectory.isAbsolute = true)
    (matched : r.matchAlias specifier = some (rule, rest)) (flat : ['.', '.'] ∉ rest.splitOn '/') (importer : Path) :
    let directory := (r.baseDirectory.join ⟨rule.substitution.getD "src".toList⟩).normalize
    let names := (rest.splitOn '/').filter fun s => s ≠ [] ∧ s ≠ ['.']
    let candidate := r.candidate specifier importer
    (rest.head? ≠ some '/' →
      candidate.components = directory.components ++ names.map .name ∧
        candidate = .ofComponents (directory.components ++ names.map .name) ∧ directory.isBelow candidate = true) ∧
    (rest.head? = some '/' → candidate = .ofComponents (.root :: names.map .name)) := by
  intro directory names candidate
  have level : ¬(⟨rest⟩ : Path).Climbs := by
    rw [Path.climbs_iff]
    exact flat
  have rooted : (r.directoryOf rule).isAbsolute = true := Path.join_absolute absolute _
  have joined : candidate = ((r.directoryOf rule).join ⟨rest⟩).normalize := candidate_of_matched matched importer
  have wholeRooted := Path.join_absolute rooted ⟨rest⟩
  constructor
  · intro behind
    have relative : (⟨rest⟩ : Path).isAbsolute = false := by simpa [Path.isAbsolute] using behind
    have parts : directory.components = .root :: (r.directoryOf rule).place.map .name :=
      Path.normalize_components_absolute rooted
    have whole : directory.components ++ names.map .name =
        .root :: ((r.directoryOf rule).join ⟨rest⟩).place.map .name := by
      rw [parts, Path.join_place_named rooted relative level, List.map_append]
      rfl
    have components : candidate.components = directory.components ++ names.map .name := by
      rw [whole, joined, Path.normalize_components_absolute wholeRooted]
    refine ⟨components, ?_, ?_⟩
    · rw [whole, joined, Path.normalize_absolute wholeRooted]
    · rw [Path.isBelow, components]
      exact List.isPrefixOf_iff_prefix.2 (List.prefix_append ..)
  · intro slash
    have itself : (⟨rest⟩ : Path).isAbsolute = true := by simpa [Path.isAbsolute] using slash
    rw [joined, Path.join_of_absolute _ itself, Path.normalize_absolute itself, Path.place_named itself level]
    rfl

theorem candidate_inside_dots :
    let r : Resolver := .ofRules ⟨"/base/./x/..".toList⟩ [⟨['~'], some "app/".toList⟩]
    let rest : Text := "./a//b/.".toList
    r.baseDirectory.isAbsolute = true ∧ r.matchAlias ("~/".toList ++ rest) = some (⟨['~'], some "app/".toList⟩, rest) ∧
      ['.', '.'] ∉ rest.splitOn '/' ∧
      ∀ importer, (r.candidate ("~/".toList ++ rest) importer).components =
        [.root, .name "base".toList, .name "app".toList, .name ['a'], .name ['b']] := by
  intro r rest
  have matched : r.matchAlias ("~/".toList ++ rest) = some (⟨['~'], some "app/".toList⟩, rest) := by decide +kernel
  have flat : ['.', '.'] ∉ rest.splitOn '/' := by decide +kernel
  refine ⟨by decide +kernel, matched, flat, fun importer => ?_⟩
  obtain ⟨components, -⟩ := (candidate_inside (by decide +kernel) matched flat importer).1 (by decide)
  rw [components]
  decide +kernel

/-- A slash too many leads out of the directory of the alias. -/
theorem doubled_slash_escapes :
    let r : Resolver := .ofRules ⟨"/project".toList⟩ [⟨['@'], none⟩]
    let specifier : Text := "@//main".toList
    r.baseDirectory.isAbsolute = true ∧ r.matchAlias specifier = some (⟨['@'], none⟩, "/main".toList) ∧
      ['.', '.'] ∉ Text.splitOn '/' "/main".toList ∧
      ∀ importer, r.candidate specifier importer = ⟨"/main".toList⟩ ∧
        r.candidate specifier importer ≠ ⟨"/project/src/main".toList⟩ ∧
        (⟨"/project/src".toList⟩ : Path).isBelow (r.candidate specifier importer) = false := by
  intro r specifier
  have matched : r.matchAlias specifier = some (⟨['@'], none⟩, "/main".toList) := by decide +kernel
  have escaped (importer : Path) : r.candidate specifier importer = ⟨"/main".toList⟩ := by
    rw [candidate_of_matched matched importer]
    decide +kernel
  refine ⟨by decide +kernel, matched, by decide +kernel, fun importer => ?_⟩
  rw [escaped importer]
  decide +kernel

end ComponentLint.Resolver
