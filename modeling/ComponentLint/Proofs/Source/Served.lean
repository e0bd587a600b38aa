import ComponentLint.Proofs.Lint.Reporting
import ComponentLint.Proofs.Run.Sources
import Mathlib.Data.List.Nodup

/-! What a host serves and what its reads leave on the shelf. A component is served as a piece of its document; the
frame that is shelved with it is what stands around that piece. After any number of reads the shelf holds under a key
the frame of the first component that was read there, so neither the order of the reads nor the spelling of the paths
can part a script from its frame. -/
namespace ComponentLint

namespace Component

variable {p q : Path} {document : Text}

theorem Shelf.get?_congr (shelf : Shelf) (same : p.normalize = q.normalize) : shelf.get? p = shelf.get? q := by
  simp only [Shelf.get?, same]

theorem extract_unscripted (shelf : Shelf) (p : Path) (none_ : ∀ s, script? document ≠ .ok (some s)) :
    (extract shelf p document).2 = shelf := by
  rw [extract]
  cases script : script? document with
  | error d => rfl
  | ok found =>
    cases found with
    | none => rfl
    | some s => exact absurd script (none_ s)

/-- Alone on the shelf, a document leaves the frame around its script, if it has one. -/
theorem extract_alone {f : Frame} :
    (extract {} p document).2.get? p = some f ↔ f.path = p.normalize ∧ f.Holds document := by
  by_cases some_ : ∃ s, script? document = .ok (some s)
  · obtain ⟨s, script⟩ := some_
    obtain ⟨before, after, whole, start, stop⟩ := script?_split script
    rw [extract_split {} p script whole start stop, Shelf.get?_insert, if_pos rfl]
    simp only [Shelf.get?, List.find?_nil, Option.none_or, Option.some.injEq]
    constructor
    · rintro rfl
      exact ⟨rfl, s, script, whole, start⟩
    · rintro ⟨path, holds⟩
      obtain ⟨left, right⟩ := holds.sides script whole start
      rw [← path, ← left, ← right]
  · have none_ : ∀ s, script? document ≠ .ok (some s) := by simpa using some_
    rw [extract_unscripted {} p none_]
    constructor
    · intro held
      simp [Shelf.get?] at held
    · rintro ⟨-, s, script, -⟩
      exact absurd script (none_ s)

/-- No key has two frames. -/
theorem extract_nodup {shelf : Shelf} (once : (shelf.frames.map Frame.path).Nodup) :
    ((extract shelf p document).2.frames.map Frame.path).Nodup := by
  by_cases some_ : ∃ s, script? document = .ok (some s)
  · obtain ⟨s, script⟩ := some_
    simp only [extract, script, Shelf.insert]
    cases held : shelf.get? p with
    | some f => exact once
    | none =>
      have free : p.normalize ∉ shelf.frames.map Frame.path := by
        intro member
        obtain ⟨f, inside, path⟩ := List.mem_map.1 member
        have refused := List.find?_eq_none.1 held f inside
        simp [path] at refused
      dsimp only
      rw [List.map_append, List.map_singleton, List.nodup_append_comm, List.singleton_append, List.nodup_cons]
      exact ⟨free, once⟩
  · rw [extract_unscripted shelf p (by simpa using some_)]
    exact once

end Component

namespace SourceUnit

variable (shelf : Component.Shelf) (file : SourceUnit)

theorem ofComponent_script {s : Component.Script} (script : Component.script? file.text = .ok (some s)) :
    (ofComponent shelf file).1.text = s.content ∧
      (ofComponent shelf file).1.origin = some ⟨file.text, s.span.start⟩ := by
  simp [ofComponent_fst, script]

theorem ofComponent_unscripted (none_ : ∀ s, Component.script? file.text ≠ .ok (some s)) :
    (ofComponent shelf file).1.text = [] ∧ (ofComponent shelf file).1.origin = some ⟨file.text, 0⟩ := by
  rw [ofComponent_fst]
  split
  · rename_i s script
    exact absurd script (none_ s)
  · exact ⟨rfl, rfl⟩

/-- A component is served as a piece of its document. -/
theorem ofComponent_rooted : (∃ offset, (ofComponent shelf file).1.origin = some ⟨file.text, offset⟩) ∧
    (ofComponent shelf file).1.Rooted := by
  by_cases some_ : ∃ s, Component.script? file.text = .ok (some s)
  · obtain ⟨s, script⟩ := some_
    obtain ⟨text, origin⟩ := ofComponent_script shelf file script
    obtain ⟨before, after, whole, start, -⟩ := Component.script?_split script
    refine ⟨⟨_, origin⟩, fun o same => ?_⟩
    obtain rfl := Option.some.inj (origin.symm.trans same)
    rw [text, whole, ← start]
    exact Text.slice?_append before s.content after
  · obtain ⟨text, origin⟩ := ofComponent_unscripted shelf file (by simpa using some_)
    refine ⟨⟨_, origin⟩, fun o same => ?_⟩
    obtain rfl := Option.some.inj (origin.symm.trans same)
    rw [text]
    exact Text.slice?_append [] [] file.text

/-- The frame of a document stands around the script that is served of it. -/
theorem ofComponent_framed {f : Component.Frame} (holds : f.Holds file.text) :
    f.before ++ (ofComponent shelf file).1.text ++ f.after = file.text ∧
      f.before.byteSize = (ofComponent shelf file).1.originOffset := by
  obtain ⟨s, script, whole, start⟩ := holds
  obtain ⟨text, origin⟩ := ofComponent_script shelf file script
  refine ⟨?_, ?_⟩
  · rw [text, List.append_assoc]
    exact whole.symm
  · rw [originOffset_composite origin]
    exact start

end SourceUnit

namespace SourceHost

/-- A host that has one unit for all spellings of a path, and serves it under their normal form. -/
structure Canonical (h : SourceHost) : Prop where
  agrees : ∀ {p q : Path} {u v : SourceUnit}, p.normalize = q.normalize → h.read p = .ok (some u) →
    h.read q = .ok (some v) → u = v
  path : ∀ {p : Path} {u : SourceUnit}, h.read p = .ok (some u) → u.path.same p.normalize = true

theorem ofTree_canonical (tree : FileTree) : (ofTree tree).Canonical where
  agrees {p q u v} same first second := by
    have unit (p : Path) {u : SourceUnit} (found : (ofTree tree).read p = .ok (some u)) :
        ∃ document s, tree.read p = .ok document ∧ p.components.getLast? = some (.name s) ∧
          u = .ofFile p document := by
      cases read : tree.read p with
      | error f => cases f <;> simp [ofTree, read] at found
      | ok document =>
        obtain ⟨s, last⟩ := FileTree.read_fileName read
        simp only [ofTree, read] at found
        exact ⟨document, s, rfl, last, (Option.some.inj (Except.ok.inj found)).symm⟩
    obtain ⟨document, s, read, last, rfl⟩ := unit p first
    obtain ⟨document', s', read', last', rfl⟩ := unit q second
    have name : p.fileName? = q.fileName? := by
      rw [← Path.normalize_fileName last, same, Path.normalize_fileName last']
    have text := (FileTree.read_normalize read).1
    rw [same, (FileTree.read_normalize read').1] at text
    obtain rfl := Except.ok.inj text
    simp [SourceUnit.ofFile, SourceKind.ofPath, same, name]
  path {p u} found := by
    cases read : tree.read p with
    | error f => cases f <;> simp [ofTree, read] at found
    | ok document =>
      simp only [ofTree, read] at found
      obtain rfl := Option.some.inj (Except.ok.inj found)
      simp [SourceUnit.ofFile, Path.same]

variable {h : SourceHost} {p q : Path} {file : SourceUnit}

/-! ## One read -/

theorem readUnit_component (shelf : Component.Shelf) (component : p.isComponent = true)
    (read : h.read p = .ok (some file)) :
    h.readUnit shelf p = (.ok (some (SourceUnit.ofComponent shelf file).1),
      (Component.extract shelf file.path file.text).2) := by
  simp only [readUnit, read, component, if_true, SourceUnit.ofComponent_snd]

theorem readUnit_other (shelf : Component.Shelf)
    (other : p.isComponent = false ∨ ∀ file, h.read p ≠ .ok (some file)) :
    h.readUnit shelf p = (h.read p, shelf) := by
  cases read : h.read p with
  | error f => simp only [readUnit, read]
  | ok found =>
    cases found with
    | none => simp only [readUnit, read]
    | some file =>
      have plain : p.isComponent = false := by
        rcases other with plain | missing
        · exact plain
        · exact absurd read (missing file)
      simp [readUnit, read, plain]

theorem Canonical.normalize_path (canonical : h.Canonical) (read : h.read p = .ok (some file)) :
    file.path.normalize = p.normalize :=
  Path.normalize_eq_of_same (canonical.path read)

/-- The frame that a read leaves on an empty shelf: that of the document, if it is one of a component. -/
theorem Canonical.readUnit_alone (canonical : h.Canonical) {f : Component.Frame} :
    (h.readUnit {} p).2.get? p = some f ↔ p.isComponent = true ∧
      ∃ file, h.read p = .ok (some file) ∧ f.path = p.normalize ∧ f.Holds file.text := by
  by_cases served : p.isComponent = true ∧ ∃ file, h.read p = .ok (some file)
  · obtain ⟨component, file, read⟩ := served
    have key := canonical.normalize_path read
    rw [readUnit_component {} component read, Component.Shelf.get?_congr _ key.symm, Component.extract_alone, key]
    constructor
    · intro framed
      exact ⟨component, file, read, framed⟩
    · rintro ⟨-, file', read', framed⟩
      obtain rfl := canonical.agrees rfl read read'
      exact framed
  · have other : p.isComponent = false ∨ ∀ file, h.read p ≠ .ok (some file) := by
      rw [not_and_or, Bool.not_eq_true, not_exists] at served
      exact served
    rw [readUnit_other {} other]
    constructor
    · intro held
      simp [Component.Shelf.get?] at held
    · rintro ⟨component, file, read, -⟩
      exact absurd ⟨component, file, read⟩ served

theorem Canonical.readUnit_get? (canonical : h.Canonical) (shelf : Component.Shelf) (p q : Path) :
    (h.readUnit shelf p).2.get? q =
      (shelf.get? q).or (if q.normalize = p.normalize then (h.readUnit {} p).2.get? p else none) := by
  obtain ⟨frame, adds⟩ := (readUnit_adds (q := p) fun u read => canonical.normalize_path read).2
  have alone : (h.readUnit {} p).2.get? p = frame := by
    have here := adds {} p
    rw [if_pos rfl] at here
    exact here
  rw [adds, alone]

/-! ## A run of reads -/

theorem readAll_cons (shelf : Component.Shelf) (p : Path) (rest : List Path) :
    (Program.readAll h shelf (p :: rest)).2 = (Program.readAll h (h.readUnit shelf p).2 rest).2 := by
  rw [Program.readAll]
  cases h.readUnit shelf p with
  | mk found left =>
    dsimp only
    split <;> rfl

/-- After a run of reads the shelf holds what it held, and for each other key the first frame that was read there. -/
theorem Canonical.readAll_get? (canonical : h.Canonical) (shelf : Component.Shelf) (paths : List Path) (q : Path) :
    (Program.readAll h shelf paths).2.get? q = (shelf.get? q).or
      (paths.findSome? fun p => if q.normalize = p.normalize then (h.readUnit {} p).2.get? p else none) := by
  induction paths generalizing shelf with
  | nil => simp [Program.readAll]
  | cons p rest ih =>
    rw [readAll_cons, ih, canonical.readUnit_get?, Option.or_assoc, List.findSome?_cons]
    congr 1
    cases (if q.normalize = p.normalize then (h.readUnit {} p).2.get? p else none) <;> rfl

theorem readAll_nodup (paths : List Path) {shelf : Component.Shelf}
    (once : (shelf.frames.map Component.Frame.path).Nodup) :
    ((Program.readAll h shelf paths).2.frames.map Component.Frame.path).Nodup := by
  induction paths generalizing shelf with
  | nil => exact once
  | cons p rest ih =>
    rw [readAll_cons]
    apply ih
    by_cases served : p.isComponent = true ∧ ∃ file, h.read p = .ok (some file)
    · obtain ⟨component, file, read⟩ := served
      rw [readUnit_component shelf component read]
      exact Component.extract_nodup once
    · rw [not_and_or, Bool.not_eq_true, not_exists] at served
      rw [readUnit_other shelf served]
      exact once

/-- The frame that is held under a key is that of a component that was read there. -/
theorem Canonical.readAll_get?_eq_some (canonical : h.Canonical) {paths : List Path} {f : Component.Frame}
    (held : (Program.readAll h {} paths).2.get? q = some f) :
    ∃ p ∈ paths, p.isComponent = true ∧ p.normalize = q.normalize ∧
      ∃ file, h.read p = .ok (some file) ∧ f.Holds file.text := by
  rw [canonical.readAll_get?] at held
  obtain ⟨p, member, found⟩ := List.exists_of_findSome?_eq_some held
  split_ifs at found with key
  obtain ⟨component, file, read, -, holds⟩ := canonical.readUnit_alone.1 found
  exact ⟨p, member, component, key.symm, file, read, holds⟩

/-- A key has a frame exactly when a component with a script was read there. -/
theorem Canonical.readAll_isSome (canonical : h.Canonical) (paths : List Path) (q : Path) :
    ((Program.readAll h {} paths).2.get? q).isSome = true ↔
      ∃ p ∈ paths, p.isComponent = true ∧ p.normalize = q.normalize ∧
        ∃ file s, h.read p = .ok (some file) ∧ Component.script? file.text = .ok (some s) := by
  constructor
  · intro some_
    obtain ⟨f, held⟩ := Option.isSome_iff_exists.1 some_
    obtain ⟨p, member, component, key, file, read, s, script, -⟩ := canonical.readAll_get?_eq_some held
    exact ⟨p, member, component, key, file, s, read, script⟩
  · rintro ⟨p, member, component, key, file, s, read, script⟩
    obtain ⟨before, after, whole, start, -⟩ := Component.script?_split script
    have alone : (h.readUnit {} p).2.get? p = some ⟨p.normalize, before, after⟩ :=
      canonical.readUnit_alone.2 ⟨component, file, read, rfl, s, script, whole, start⟩
    rw [canonical.readAll_get?]
    apply List.findSome?_isSome_iff.2
    exact ⟨p, member, by rw [if_pos key.symm, alone]; rfl⟩

/-- What is served agrees with what is shelved, after any reads of a host that has one unit for all spellings of a path.
What is no component is served as it is and leaves the shelf alone; a component is served as a piece of its document.
A key has a frame exactly when a component with a script was read there. The frame stands around the script that is
served of any spelling of the path, it is the only one of the key, and no later read changes it. -/
theorem served_agrees_shelved (canonical : h.Canonical) (paths : List Path) :
    let shelf := (Program.readAll h {} paths).2
    (∀ p, p.isComponent = false ∨ (∀ file, h.read p ≠ .ok (some file)) → h.readUnit shelf p = (h.read p, shelf)) ∧
    (∀ p file, p.isComponent = true → h.read p = .ok (some file) →
      ∃ u, (h.readUnit shelf p).1 = .ok (some u) ∧ u.path = file.path ∧
        (∃ offset, u.origin = some ⟨file.text, offset⟩) ∧ u.Rooted) ∧
    (∀ q, (shelf.get? q).isSome = true ↔ ∃ p ∈ paths, p.isComponent = true ∧ p.normalize = q.normalize ∧
      ∃ file s, h.read p = .ok (some file) ∧ Component.script? file.text = .ok (some s)) ∧
    (∀ q f, shelf.get? q = some f →
      (∀ p file u other, p.isComponent = true → p.normalize = q.normalize → h.read p = .ok (some file) →
        (h.readUnit other p).1 = .ok (some u) →
        f.before ++ u.text ++ f.after = file.text ∧ f.before.byteSize = u.originOffset) ∧
      ∀ later, (Program.readAll h {} (paths ++ later)).2.get? q = some f) ∧
    (∀ p q, p.normalize = q.normalize → shelf.get? p = shelf.get? q) ∧
    (shelf.frames.map Component.Frame.path).Nodup := by
  intro shelf
  refine ⟨fun p other => readUnit_other shelf other, ?_, canonical.readAll_isSome paths, ?_,
    fun p q same => Component.Shelf.get?_congr shelf same, readAll_nodup paths List.nodup_nil⟩
  · intro p file component read
    obtain ⟨origin, rooted⟩ := SourceUnit.ofComponent_rooted shelf file
    refine ⟨_, ?_, SourceUnit.ofComponent_path shelf file, origin, rooted⟩
    rw [readUnit_component shelf component read]
  · intro q f held
    constructor
    · intro p file u other component key read served
      obtain ⟨p', -, -, key', file', read', holds⟩ := canonical.readAll_get?_eq_some held
      obtain rfl := canonical.agrees (key'.trans key.symm) read' read
      rw [readUnit_component other component read] at served
      rw [← Option.some.inj (Except.ok.inj served)]
      exact SourceUnit.ofComponent_framed other file' holds
    · intro later
      change (Program.readAll h {} paths).2.get? q = some f at held
      rw [canonical.readAll_get?] at held ⊢
      rw [List.findSome?_append, ← Option.or_assoc, held]
      rfl

theorem served_agrees_shelved_tree :
    let document : Text := "<p/>\n<script lang=\"ts\">a()\n</script>\n".toList
    let h : SourceHost := .ofTree ⟨[(["A.vue".toList], .file (.text document)),
      (["B.vue".toList], .file (.text "<p/>".toList)), (["m.ts".toList], .file (.text "a()".toList))]⟩
    let a : Path := ⟨"/A.vue".toList⟩
    let shelf := (Program.readAll h {} [⟨"/m.ts".toList⟩, ⟨"/B.vue".toList⟩, ⟨"/.//A.vue".toList⟩]).2
    (shelf.get? ⟨"/B.vue".toList⟩).isSome = false ∧
      ∃ f u, shelf.get? a = some f ∧ (h.readUnit shelf a).1 = .ok (some u) ∧ u.text = "a()\n".toList ∧
        f.before ++ u.text ++ f.after = document ∧ f.before.byteSize = u.originOffset ∧
        shelf.frames.map (·.path) = [a] := by
  intro document h a shelf
  obtain ⟨-, served, shelved, framed, -, -⟩ := served_agrees_shelved (ofTree_canonical _)
    [⟨"/m.ts".toList⟩, ⟨"/B.vue".toList⟩, ⟨"/.//A.vue".toList⟩]
  obtain ⟨file, read, text⟩ : ∃ file, h.read a = .ok (some file) ∧ file.text = document := ⟨_, rfl, rfl⟩
  obtain ⟨u, found, -⟩ := served a file (by decide +kernel) read
  have script : ∃ s, Component.script? document = .ok (some s) := ⟨_, rfl⟩
  obtain ⟨s, script⟩ := script
  obtain ⟨f, held⟩ := Option.isSome_iff_exists.1 ((shelved a).2
    ⟨⟨"/.//A.vue".toList⟩, by simp, by decide +kernel, by decide +kernel, _, s, rfl, script⟩)
  obtain ⟨around, start⟩ := (framed a f held).1 a file u shelf (by decide +kernel) rfl read found
  have content : u.text = "a()\n".toList := by
    rw [readUnit_component shelf (by decide +kernel) read] at found
    rw [← Option.some.inj (Except.ok.inj found)]
    obtain rfl := Option.some.inj (Except.ok.inj read)
    decide +kernel
  exact ⟨by decide +kernel, f, u, held, found, content, around.trans text, start, by decide +kernel⟩

end SourceHost

end ComponentLint
