import ComponentLint.Proofs.Path.Above
import ComponentLint.Proofs.Path.Endings
import ComponentLint.Resolution.Search

/-! What is found for a specifier: the first file of a fixed order, and for a package what there is in the nearest
directory of packages above the importer. Where there is more to find, no less is found. -/
namespace ComponentLint

/-! ## First elements -/

/-- The first of a list that has the property. -/
def IsFirst {α : Type} (P : α → Prop) (l : List α) (a : α) : Prop :=
  ∃ earlier later, l = earlier ++ a :: later ∧ P a ∧ ∀ b ∈ earlier, ¬P b

theorem find?_eq_some_iff_isFirst {α : Type} {P : α → Prop} {p : α → Bool} (decides : ∀ a, p a = true ↔ P a)
    {l : List α} {a : α} : l.find? p = some a ↔ IsFirst P l a := by
  rw [List.find?_eq_some_iff_append, IsFirst]
  constructor
  · rintro ⟨holds, earlier, later, split, others⟩
    refine ⟨earlier, later, split, (decides a).1 holds, fun b member holds' => ?_⟩
    have fails := others b member
    rw [(decides b).2 holds'] at fails
    contradiction
  · rintro ⟨earlier, later, split, holds, others⟩
    refine ⟨(decides a).2 holds, earlier, later, split, fun b member => ?_⟩
    rw [Bool.not_eq_true', Bool.eq_false_iff]
    exact fun passes => others b member ((decides b).1 passes)

theorem findSome?_eq_some_iff_isFirst {α β : Type} {R : α → β → Prop} {f : α → Option β}
    (gives : ∀ a b, f a = some b ↔ R a b) {l : List α} {b : β} :
    l.findSome? f = some b ↔ ∃ a, IsFirst (fun a => ∃ b, R a b) l a ∧ R a b := by
  rw [List.findSome?_eq_some_iff]
  constructor
  · rintro ⟨earlier, a, later, split, result, others⟩
    have holds := (gives a b).1 result
    refine ⟨a, ⟨earlier, later, split, ⟨b, holds⟩, ?_⟩, holds⟩
    rintro c member ⟨d, holds'⟩
    have result' := others c member
    rw [(gives c d).2 holds'] at result'
    contradiction
  · rintro ⟨a, ⟨earlier, later, split, -, others⟩, holds⟩
    refine ⟨earlier, a, later, split, (gives a b).2 holds, fun c member => ?_⟩
    rw [Option.eq_none_iff_forall_ne_some]
    exact fun d result => others c member ⟨d, (gives c d).1 result⟩

theorem findSome?_flatMap {α β γ : Type} (g : α → List β) (f : β → Option γ) (l : List α) :
    (l.flatMap g).findSome? f = l.findSome? fun a => (g a).findSome? f := by
  induction l with
  | nil => rfl
  | cons a l ih =>
    rw [List.flatMap_cons, List.findSome?_append, ih, List.findSome?_cons]
    cases (g a).findSome? f <;> rfl

namespace Search

variable {s s' : Search} {p candidate base found : Path}

/-! ## The file of a candidate -/

/-- A file of the host, or a unit of the program. -/
def IsFile (s : Search) (p : Path) : Prop :=
  (∃ unit ∈ s.known, unit.components = p.components) ∨ s.host.hasFile p = true

theorem hasFile_iff (p : Path) : s.hasFile p = true ↔ s.IsFile p := by
  simp [hasFile, IsFile, Path.same]

/-- A stem, with a name in it, that a path is spelled with before its `.js` or `.jsx`. -/
def ScriptAt (p stem : Path) : Prop :=
  stem.chars ≠ [] ∧ stem.chars.getLast? ≠ some '/' ∧ ∃ extension tail,
    (extension = "js".toList ∨ extension = "jsx".toList) ∧ Path.Silent tail ∧
      p.chars = stem.chars ++ '.' :: extension ++ tail

theorem scriptAt_of_scriptStem? {stem : Path} (h : scriptStem? p = some stem) : ScriptAt p stem := by
  rw [scriptStem?] at h
  split at h
  · rename_i extension isExtension
    split_ifs at h with script
    obtain rfl := Option.some.inj h
    obtain ⟨name, named, ofName⟩ := Option.bind_eq_some_iff.1 isExtension
    obtain ⟨front, tail, ends⟩ := Path.exists_endsIn named
    obtain ⟨basis, some_, -, rfl⟩ := Path.extensionOfName_eq_some_iff.1 ofName
    rw [ends.stem]
    refine ⟨by simp [some_], ?_, extension, tail, by simpa using script, ends.silent, by rw [ends.chars]; simp⟩
    rw [List.getLast?_append_of_ne_nil _ some_]
    intro slash
    exact ends.isName.2.2.2 (List.mem_append_left _ (List.mem_of_getLast? slash))
  · contradiction

theorem ScriptAt.scriptStem? {stem : Path} (h : ScriptAt p stem) : scriptStem? p = some stem := by
  obtain ⟨some_, noSlash, extension, tail, script, silent, chars⟩ := h
  obtain ⟨front, basis, whole, bounded, pure, named⟩ := Path.exists_lastSegment some_ noSlash
  obtain ⟨within, noDot, nonempty⟩ : '/' ∉ extension ∧ '.' ∉ extension ∧ extension ≠ [] := by
    rcases script with rfl | rfl <;> decide
  have ends : p.EndsIn front (basis ++ '.' :: extension) tail :=
    ⟨by rw [chars, whole]; simp, bounded, Path.isName_of_extension pure within nonempty noDot, silent⟩
  have isExtension : p.extension? = some extension := by
    rw [Path.extension?, ends.fileName?]
    exact Path.extensionOfName_eq_some_iff.2 ⟨basis, named, noDot, rfl⟩
  rw [Search.scriptStem?, isExtension]
  dsimp only
  rw [if_pos (by simpa using script), ends.stem, ← whole]

theorem scriptStem?_eq_some_iff {stem : Path} : scriptStem? p = some stem ↔ ScriptAt p stem :=
  ⟨scriptAt_of_scriptStem?, ScriptAt.scriptStem?⟩

/-- The files that stand in place of a script. -/
inductive Instead : Path → List Path → Prop where
  | script {p stem : Path} (h : ScriptAt p stem) :
      Instead p [⟨stem.chars ++ ".ts".toList⟩, ⟨stem.chars ++ ".tsx".toList⟩]
  | other {p : Path} (h : ∀ stem, ¬ScriptAt p stem) : Instead p []

theorem instead_iff {files : List Path} : Instead p files ↔ files =
    match scriptStem? p with
    | some stem => [withExtension stem "ts".toList, withExtension stem "tsx".toList]
    | none => [] := by
  constructor
  · intro h
    cases h with
    | script script =>
      rw [script.scriptStem?]
      rfl
    | other other =>
      cases found : scriptStem? p with
      | none => rfl
      | some stem => exact absurd (scriptStem?_eq_some_iff.1 found) (other stem)
  · rintro rfl
    cases found : scriptStem? p with
    | none => exact .other fun stem script => by simp [script.scriptStem?] at found
    | some stem => exact .script (scriptStem?_eq_some_iff.1 found)

/-- The files that are tried for a candidate, in order. -/
def Tried (candidate : Path) (files : List Path) : Prop :=
  ∃ instead, Instead candidate instead ∧
    files = candidate :: instead ++
      [".ts", ".tsx", ".d.ts", ".vue", ".js", ".jsx", ".mjs", ".cjs"].map
        (fun extension => ⟨candidate.chars ++ extension.toList⟩) ++
      ["index.ts", "index.tsx", "index.d.ts", "index.vue", "index.js", "index.jsx", "index.mjs", "index.cjs"].map
        (fun index => candidate.join (.ofString index))

theorem tried_iff {files : List Path} : Tried candidate files ↔ files = places candidate := by
  constructor
  · rintro ⟨instead, h, rfl⟩
    rw [instead_iff] at h
    subst h
    rfl
  · rintro rfl
    exact ⟨_, instead_iff.2 rfl, rfl⟩

/-- The first file of those that are tried. -/
def IsMeant (s : Search) (candidate found : Path) : Prop :=
  ∃ files, Tried candidate files ∧ IsFirst s.IsFile files found

/-- None of the files that are tried is there. -/
def IsMissing (s : Search) (candidate : Path) : Prop :=
  ∀ files, Tried candidate files → ∀ p ∈ files, ¬s.IsFile p

theorem file?_eq_some_iff : s.file? candidate = some found ↔ s.IsMeant candidate found := by
  simp only [file?, IsMeant, tried_iff, exists_eq_left]
  exact find?_eq_some_iff_isFirst hasFile_iff

theorem file?_eq_none_iff : s.file? candidate = none ↔ s.IsMissing candidate := by
  simp only [file?, IsMissing, tried_iff, forall_eq, List.find?_eq_none, hasFile_iff]

/-! ## Packages -/

/-- What a directory of packages has for a package: its file, or the directory of the package itself. -/
inductive Provides (s : Search) (base : Path) : Path → Prop where
  | file {found : Path} (h : s.IsMeant base found) : Provides s base found
  | directory (noFile : s.IsMissing base) (h : s.host.hasDirectory base = true) : Provides s base base

theorem packageAt?_eq_some_iff (base found : Path) : s.packageAt? base = some found ↔ s.Provides base found := by
  rw [packageAt?]
  split
  · rename_i file isFile
    have meant := file?_eq_some_iff.1 isFile
    constructor
    · intro same
      obtain rfl := Option.some.inj same
      exact .file meant
    · rintro (other | ⟨noFile, -⟩)
      · rw [← isFile, file?_eq_some_iff.2 other]
      · rw [file?_eq_none_iff.2 noFile] at isFile
        contradiction
  · rename_i isFile
    have missing := file?_eq_none_iff.1 isFile
    constructor
    · intro h
      split_ifs at h with isDirectory
      obtain rfl := Option.some.inj h
      exact .directory missing isDirectory
    · rintro (meant | ⟨-, isDirectory⟩)
      · rw [file?_eq_some_iff.2 meant] at isFile
        contradiction
      · rw [if_pos isDirectory]

theorem packageAt?_eq_none_iff :
    s.packageAt? base = none ↔ s.IsMissing base ∧ s.host.hasDirectory base = false := by
  rw [← file?_eq_none_iff, packageAt?]
  cases s.file? base <;> simp

/-- Where a package may be in a directory: by its name, then among the types. -/
def entries (specifier : Text) (directory : Path) : List Path :=
  [(directory.join (.ofString "node_modules")).join ⟨specifier⟩,
    ((directory.join (.ofString "node_modules")).join (.ofString "@types")).join ⟨specifier⟩]

theorem findSome?_entries (specifier : Text) (directory : Path) :
    (entries specifier directory).findSome? s.packageAt? =
      (s.packageAt? ((directory.join (.ofString "node_modules")).join ⟨specifier⟩)).or
        (s.packageAt? (((directory.join (.ofString "node_modules")).join (.ofString "@types")).join ⟨specifier⟩)) := by
  rw [entries, List.findSome?_cons, List.findSome?_singleton]
  cases s.packageAt? ((directory.join (.ofString "node_modules")).join ⟨specifier⟩) <;> rfl

theorem package?_eq {specifier : Text} {importer : Path} :
    s.package? specifier importer = importer.parent?.bind fun directory =>
      (directory.ancestors.flatMap (entries specifier)).findSome? s.packageAt? := by
  simp only [findSome?_flatMap, findSome?_entries]
  rw [package?]
  cases importer.parent? <;> rfl

/-- What there is of a package in the first of its entries that there is, on the way up from an importer. -/
def IsPackage (s : Search) (specifier : Text) (importer found : Path) : Prop :=
  ∃ directory way entry, importer.parent? = some directory ∧ directory.WayUp way ∧
    IsFirst (fun entry => ∃ found, s.Provides entry found) (way.flatMap (entries specifier)) entry ∧
    s.Provides entry found

/-- There is none of the entries of a package on the way up from an importer. -/
def IsNowhere (s : Search) (specifier : Text) (importer : Path) : Prop :=
  ∀ directory way, importer.parent? = some directory → directory.WayUp way →
    ∀ entry ∈ way.flatMap (entries specifier), s.IsMissing entry ∧ s.host.hasDirectory entry = false

theorem package?_eq_some_iff {specifier : Text} {importer : Path} :
    s.package? specifier importer = some found ↔ s.IsPackage specifier importer found := by
  simp only [package?_eq, Option.bind_eq_some_iff, findSome?_eq_some_iff_isFirst packageAt?_eq_some_iff, IsPackage,
    Path.wayUp_iff]
  constructor
  · rintro ⟨directory, above, entry, first, provides⟩
    exact ⟨directory, _, entry, above, rfl, first, provides⟩
  · rintro ⟨directory, _, entry, above, rfl, first, provides⟩
    exact ⟨directory, above, entry, first, provides⟩

theorem package?_eq_none_iff {specifier : Text} {importer : Path} :
    s.package? specifier importer = none ↔ s.IsNowhere specifier importer := by
  simp only [package?_eq, Option.bind_eq_none_iff, List.findSome?_eq_none_iff, packageAt?_eq_none_iff, IsNowhere,
    Path.wayUp_iff, forall_eq_apply_imp_iff]

/-! ## More to find -/

/-- Where there are more files, units and directories. -/
structure Grows (s s' : Search) : Prop where
  known : s.known ⊆ s'.known
  files : ∀ p, s.host.hasFile p = true → s'.host.hasFile p = true
  directories : ∀ p, s.host.hasDirectory p = true → s'.host.hasDirectory p = true

theorem Grows.isFile (grows : s.Grows s') (h : s.IsFile p) : s'.IsFile p := by
  rcases h with ⟨unit, member, same⟩ | file
  · exact .inl ⟨unit, grows.known member, same⟩
  · exact .inr (grows.files p file)

theorem Grows.isMissing (grows : s.Grows s') (h : s'.IsMissing candidate) : s.IsMissing candidate :=
  fun files tried p member isFile => h files tried p member (grows.isFile isFile)

theorem Grows.isNowhere (grows : s.Grows s') {specifier : Text} {importer : Path} (h : s'.IsNowhere specifier importer) :
    s.IsNowhere specifier importer := by
  intro directory way above isWay entry member
  obtain ⟨missing, noDirectory⟩ := h directory way above isWay entry member
  refine ⟨grows.isMissing missing, ?_⟩
  rw [Bool.eq_false_iff] at noDirectory ⊢
  exact fun isDirectory => noDirectory (grows.directories entry isDirectory)

/-! ## Specifiers -/

variable {r : Resolver} {specifier : Text} {importer : Path}

theorem resolve_eq (outside : Text.startsWith specifier "node:".toList = false) :
    s.resolve r specifier importer = (s.file? (r.candidate specifier importer)).or
      (if r.isBare specifier then s.package? specifier importer else none) := by
  rw [resolve, outside, if_neg (by decide)]
  cases s.file? (r.candidate specifier importer) <;> rfl

theorem resolve_eq_none_iff (outside : Text.startsWith specifier "node:".toList = false) :
    s.resolve r specifier importer = none ↔ s.IsMissing (r.candidate specifier importer) ∧
      (r.isBare specifier = true → s.IsNowhere specifier importer) := by
  rw [resolve_eq outside, Option.or_eq_none_iff, file?_eq_none_iff, ← package?_eq_none_iff]
  cases r.isBare specifier <;> simp

/-- A specifier that does not name a module of the runtime means the first file of those that are tried for its
candidate. Where there is none of these, a package is looked for: it is found in the first of its entries that there is
on the way up from the importer. Nothing is found only if there is none of all these. With more files, units and
directories whatever was found leads somewhere still. -/
theorem resolve_first_match (s : Search) (r : Resolver) (importer : Path)
    (outside : Text.startsWith specifier "node:".toList = false) :
    let candidate := r.candidate specifier importer
    (∀ found, s.resolve r specifier importer = some found ↔
      s.IsMeant candidate found ∨
        s.IsMissing candidate ∧ r.isBare specifier = true ∧ s.IsPackage specifier importer found) ∧
      (s.resolve r specifier importer = none ↔
        s.IsMissing candidate ∧ (r.isBare specifier = true → s.IsNowhere specifier importer)) ∧
      (∀ s' : Search, s.Grows s' → (s.resolve r specifier importer).isSome = true →
        (s'.resolve r specifier importer).isSome = true) := by
  intro candidate
  refine ⟨fun found => ?_, resolve_eq_none_iff outside, fun s' grows resolved => ?_⟩
  · rw [resolve_eq outside, Option.or_eq_some_iff, file?_eq_some_iff, file?_eq_none_iff, ← package?_eq_some_iff]
    cases r.isBare specifier <;> simp [candidate]
  · rw [← Option.ne_none_iff_isSome, Ne, resolve_eq_none_iff outside] at resolved ⊢
    rintro ⟨missing, nowhere⟩
    exact resolved ⟨grows.isMissing missing, fun bare => grows.isNowhere (nowhere bare)⟩

theorem resolve_first_match_types :
    let files := ["/p/node_modules/@types/vue/index.d.ts", "/node_modules/vue/index.ts"]
    let s : Search := ⟨.ofLists (files.map fun file => (.ofString file, some [])) [.ofString "/p/src/node_modules"], []⟩
    let r : Resolver := .ofTable (.ofString "/p") none
    let importer := Path.ofString "/p/src/main.ts"
    Text.startsWith "vue".toList "node:".toList = false ∧
      s.IsMissing (r.candidate "vue".toList importer) ∧
      s.IsPackage "vue".toList importer (.ofString "/p/node_modules/@types/vue/index.d.ts") ∧
      ∀ s' : Search, s.Grows s' → (s'.resolve r "vue".toList importer).isSome = true := by
  intro files s r importer
  have outside : Text.startsWith "vue".toList "node:".toList = false := by decide
  obtain ⟨first, -, grown⟩ := resolve_first_match s r importer outside
  have missing : s.IsMissing (r.candidate "vue".toList importer) := file?_eq_none_iff.1 (by decide +kernel)
  have found : s.resolve r "vue".toList importer = some (.ofString "/p/node_modules/@types/vue/index.d.ts") := by
    decide +kernel
  refine ⟨outside, missing, ?_, fun s' grows => grown s' grows (by rw [found]; rfl)⟩
  rcases (first _).1 found with meant | ⟨-, -, package⟩
  · have nothing := (file?_eq_none_iff.2 missing).symm.trans (file?_eq_some_iff.2 meant)
    exact absurd nothing.symm (Option.some_ne_none _)
  · exact package

end Search

end ComponentLint
