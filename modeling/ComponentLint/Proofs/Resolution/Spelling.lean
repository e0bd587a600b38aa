import ComponentLint.Proofs.Path.Climbing
import ComponentLint.Resolution.Search

/-! Where a resolution spells a place in its normal form. Aliases and relative specifiers are folded; an absolute
specifier and the name of a package are taken as they are written, with the `..` that they have. -/
namespace ComponentLint

namespace Resolver

/-- The specifier is folded when it is resolved, or there is nothing in it to fold. -/
def Plain (r : Resolver) (specifier : Text) : Prop :=
  (r.matchAlias specifier).isSome = true ∨ specifier.head? = some '.' ∨ ¬(⟨specifier⟩ : Path).Climbs

instance (r : Resolver) (specifier : Text) : Decidable (r.Plain specifier) :=
  inferInstanceAs (Decidable (_ ∨ _ ∨ _))

theorem candidate_level {r : Resolver} {specifier : Text} (plain : r.Plain specifier) (importer : Path) :
    (r.candidate specifier importer).Level := by
  rw [candidate]
  split
  · exact Path.normalize_level _
  · rename_i noAlias
    split_ifs with absolute
    · rcases plain with renamed | dot | flat
      · simp [noAlias] at renamed
      · simp [Path.isAbsolute, dot] at absolute
      · exact fun _ => flat
    · exact Path.normalize_level _

end Resolver

namespace Search

variable {s : Search}

theorem withExtension_level {p q : Path} {extension : Text} (begins : p.chars <+: q.chars) (within : '/' ∉ extension)
    (named : extension.any (· ≠ '.') = true) (level : q.Level) : (withExtension p extension).Level := by
  intro absolute climbs
  refine level ?_ (Path.climbs_of_extended begins (by simpa using within) ?_ climbs)
  · obtain ⟨rest, split⟩ := begins
    cases chars : p.chars with
    | nil => simp [withExtension, Path.isAbsolute, chars] at absolute
    | cons c front =>
      rw [withExtension, Path.isAbsolute, chars] at absolute
      rwa [Path.isAbsolute, ← split, chars]
  · obtain ⟨c, member, other⟩ := List.any_eq_true.1 named
    exact ⟨c, List.mem_cons_of_mem _ member, of_decide_eq_true other⟩

theorem extensions_named : ∀ extension ∈ extensions,
    '/' ∉ extension ∧ extension.any (· ≠ '.') = true ∧ ¬(⟨"index.".toList ++ extension⟩ : Path).Climbs := by decide

/-- The stem of a script is a beginning of its path. -/
theorem scriptStem?_prefix {p stem : Path} (h : scriptStem? p = some stem) : stem.chars <+: p.chars := by
  rw [scriptStem?] at h
  split at h
  · split_ifs at h
    obtain rfl := Option.some.inj h
    obtain ⟨dropped, split, -⟩ := Path.trimTail_split p.chars.reverse
    have trimmed : Path.trimTail p.chars.reverse <:+ p.chars.reverse := ⟨dropped, split.symm⟩
    rw [← List.reverse_suffix, List.reverse_reverse]
    exact (List.drop_suffix _ _).trans trimmed
  · contradiction

/-- What is tried for a candidate climbs only if the candidate does. -/
theorem places_level {candidate p : Path} (level : candidate.Level) (tried : p ∈ places candidate) : p.Level := by
  rw [places, List.mem_append, List.mem_append, List.mem_append] at tried
  rcases tried with ((itself | instead) | extended) | index
  · obtain rfl := List.mem_singleton.1 itself
    exact level
  · cases stem : scriptStem? candidate with
    | none => simp [stem] at instead
    | some p' =>
      have begins := scriptStem?_prefix stem
      simp only [stem, List.mem_cons, List.not_mem_nil, or_false] at instead
      rcases instead with rfl | rfl
      · exact withExtension_level begins (by decide) (by decide) level
      · exact withExtension_level begins (by decide) (by decide) level
  · obtain ⟨extension, known, rfl⟩ := List.mem_map.1 extended
    obtain ⟨within, named, -⟩ := extensions_named extension known
    exact withExtension_level (List.prefix_refl _) within named level
  · obtain ⟨extension, known, rfl⟩ := List.mem_map.1 index
    exact Path.join_level level (extensions_named extension known).2.2

theorem file?_level {candidate found : Path} (level : candidate.Level) (h : s.file? candidate = some found) :
    found.Level :=
  places_level level (List.mem_of_find?_eq_some h)

theorem packageAt?_level {base found : Path} (level : base.Level) (h : s.packageAt? base = some found) :
    found.Level := by
  rw [packageAt?] at h
  split at h
  · rename_i place isFile
    obtain rfl := Option.some.inj h
    exact file?_level level isFile
  · split_ifs at h
    obtain rfl := Option.some.inj h
    exact level

theorem package?_level {specifier : Text} {importer found : Path} (level : importer.Level)
    (flat : ¬(⟨specifier⟩ : Path).Climbs) (h : s.package? specifier importer = some found) : found.Level := by
  rw [package?] at h
  split at h
  · contradiction
  · rename_i directory above
    obtain ⟨ancestor, member, at_⟩ := List.exists_of_findSome?_eq_some h
    have high : ancestor.Level :=
      Path.ancestors_forall (motive := Path.Level) Path.parent?_level (Path.parent?_level level above) member
    have packages : (ancestor.join (.ofString "node_modules")).Level := Path.join_level high (by decide)
    rcases Option.or_eq_some_iff.1 at_ with own | ⟨-, types⟩
    · exact packageAt?_level (Path.join_level packages flat) own
    · exact packageAt?_level (Path.join_level (Path.join_level packages (by decide)) flat) types

/-- A module that is found for a plain specifier does not climb, unless it is relative. -/
theorem resolve_level {r : Resolver} {specifier : Text} {importer found : Path} (level : importer.Level)
    (plain : r.Plain specifier) (h : s.resolve r specifier importer = some found) : found.Level := by
  rw [resolve] at h
  split at h
  · rename_i runtime
    obtain rfl := Option.some.inj h
    obtain ⟨rest, named⟩ := Option.isSome_iff_exists.1 runtime
    obtain rfl := Text.after?_eq_some_iff.1 named
    intro absolute
    contradiction
  · split at h
    · rename_i place isFile
      obtain rfl := Option.some.inj h
      exact file?_level (Resolver.candidate_level plain importer) isFile
    · split_ifs at h with bare
      rw [Resolver.isBare, Bool.and_eq_true, Bool.and_eq_true, decide_eq_true_iff] at bare
      obtain ⟨⟨noDot, -⟩, noAlias⟩ := bare
      have flat : ¬(⟨specifier⟩ : Path).Climbs := by
        rcases plain with renamed | dot | flat
        · rw [Option.isNone_iff_eq_none.1 noAlias] at renamed
          contradiction
        · contradiction
        · exact flat
      exact package?_level level flat h

end Search

end ComponentLint
