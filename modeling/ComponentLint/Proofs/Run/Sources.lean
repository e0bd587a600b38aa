import ComponentLint.Lint.Linter
import ComponentLint.Program.Build
import ComponentLint.Proofs.Component.Reassembly
import ComponentLint.Proofs.Files.Places
import ComponentLint.Proofs.Run.Discovered

/-! What is kept of the files of a tree: the frames on a shelf and the units of a program. Both are faithful to
the tree that they were read from, whatever the order and the spelling of the paths, and reading one more file
keeps them so. -/
namespace ComponentLint

/-! ## Frames -/

namespace Component

/-- A frame with the two sides of the script in a document. -/
def Frame.Holds (f : Frame) (document : Text) : Prop :=
  ∃ s, script? document = .ok (some s) ∧ document = f.before ++ (s.content ++ f.after) ∧
    f.before.byteSize = s.span.start

/-- The two sides are determined by the document. -/
theorem Frame.Holds.sides {f : Frame} {document before after : Text} {s : Script} (h : f.Holds document)
    (script : script? document = .ok (some s)) (whole : document = before ++ (s.content ++ after))
    (start : before.byteSize = s.span.start) : f.before = before ∧ f.after = after := by
  obtain ⟨s', script', whole', start'⟩ := h
  obtain rfl : s' = s := Option.some.inj (Except.ok.inj (script'.symm.trans script))
  have cut : document.splitAt? s'.span.start = some (before, s'.content ++ after) :=
    Text.splitAt?_eq_some_iff.2 ⟨whole, start⟩
  have cut' : document.splitAt? s'.span.start = some (f.before, s'.content ++ f.after) :=
    Text.splitAt?_eq_some_iff.2 ⟨whole', start'⟩
  obtain ⟨left, right⟩ := Prod.mk.inj (Option.some.inj (cut'.symm.trans cut))
  exact ⟨left, List.append_cancel_left right⟩

namespace Shelf

variable {shelf : Shelf} {tree : FileTree}

/-- Each frame holds the two sides of a component of the tree, under the path of the component. -/
def Faithful (shelf : Shelf) (tree : FileTree) : Prop :=
  ∀ f ∈ shelf.frames, f.path.isComponent = true ∧ ∃ document, tree.read f.path = .ok document ∧ f.Holds document

theorem get?_eq_some {p : Path} {f : Frame} (h : shelf.get? p = some f) : f ∈ shelf.frames ∧ f.path = p.normalize := by
  refine ⟨List.mem_of_find?_eq_some h, ?_⟩
  have found := List.find?_some h
  simpa using found

/-- What a step does to every shelf: it adds at most one frame, under a path that has none. -/
def Adds (p : Path) (step : Shelf → Shelf) : Prop :=
  ∃ frame : Option Frame, ∀ shelf q,
    (step shelf).get? q = (shelf.get? q).or (if q.normalize = p.normalize then frame else none)

section Adds

variable {step : Shelf → Shelf} {p q : Path}

theorem Adds.nothing (p : Path) : Adds p id := ⟨none, fun shelf q => by simp⟩

theorem Adds.keeps (h : Adds p step) {f : Frame} (held : shelf.get? q = some f) : (step shelf).get? q = some f := by
  obtain ⟨frame, adds⟩ := h
  rw [adds, held]
  rfl

theorem Adds.other (h : Adds p step) (apart : q.normalize ≠ p.normalize) (shelf : Shelf) :
    (step shelf).get? q = shelf.get? q := by
  obtain ⟨frame, adds⟩ := h
  rw [adds, if_neg apart, Option.or_none]

theorem Adds.congr (h : Adds p step) (same : p.normalize = q.normalize) : Adds q step := by
  rwa [Adds, ← same]

/-- Two shelves with the same frame under a path still have the same after the step. -/
theorem Adds.same (h : Adds p step) {shelf' : Shelf} (same : shelf'.get? q = shelf.get? q) :
    (step shelf').get? q = (step shelf).get? q := by
  obtain ⟨frame, adds⟩ := h
  rw [adds, adds, same]

end Adds

/-- What is taken out of a document does not depend on the shelf, nor does the frame that is shelved. -/
theorem extract_adds (p : Path) (document : Text) :
    (∀ shelf, (extract shelf p document).1 = script? document) ∧ Adds p fun shelf => (extract shelf p document).2 := by
  simp only [extract]
  cases script? document with
  | error d => exact ⟨fun _ => rfl, Adds.nothing p⟩
  | ok found =>
    cases found with
    | none => exact ⟨fun _ => rfl, Adds.nothing p⟩
    | some s => exact ⟨fun _ => rfl, _, fun shelf q => get?_insert shelf p q _ _⟩

/-- A component that is extracted is shelved, unless it was before, and the shelf stays faithful. -/
theorem Faithful.extract (h : shelf.Faithful tree) {p : Path} {document : Text} (normal : p.normalize = p)
    (component : p.isComponent = true) (read : tree.read p = .ok document) :
    (Component.extract shelf p document).1 = script? document ∧
      (Component.extract shelf p document).2.Faithful tree ∧
      ∀ s, script? document = .ok (some s) → ∃ f, (Component.extract shelf p document).2.get? p = some f := by
  cases script : script? document with
  | error d =>
    rw [Component.extract, script]
    exact ⟨rfl, h, by simp⟩
  | ok found =>
    cases found with
    | none =>
      rw [Component.extract, script]
      exact ⟨rfl, h, by simp⟩
    | some s =>
      obtain ⟨before, after, whole, start, stop⟩ := script?_split script
      rw [extract_split shelf p script whole start stop]
      rw [insert]
      cases shelved : shelf.get? p with
      | some f => exact ⟨rfl, h, fun _ _ => ⟨f, shelved⟩⟩
      | none =>
        refine ⟨rfl, fun f member => ?_, fun _ _ => ⟨⟨p.normalize, before, after⟩, ?_⟩⟩
        · rcases List.mem_append.1 member with old | new
          · exact h f old
          · obtain rfl := List.mem_singleton.1 new
            dsimp only
            rw [normal]
            exact ⟨component, document, read, s, script, whole, start⟩
        · rw [get?] at shelved ⊢
          rw [List.find?_append, shelved]
          simp

end Shelf

end Component

/-! ## Units -/

namespace SourceUnit

variable {tree : FileTree}

/-- A unit that is the file at its path, or the script of the component there. -/
def Faithful (u : SourceUnit) (tree : FileTree) : Prop :=
  u.path.normalize = u.path ∧ ∃ document, tree.read u.path = .ok document ∧
    (u.path.isComponent = false → u.text = document ∧ u.origin = none) ∧
    (u.path.isComponent = true → ∀ s, Component.script? document = .ok (some s) →
      u.text = s.content ∧ u.origin = some ⟨document, s.span.start⟩)

theorem ofComponent_snd (shelf : Component.Shelf) (file : SourceUnit) :
    (ofComponent shelf file).2 = (Component.extract shelf file.path file.text).2 := by
  rw [ofComponent]
  cases Component.extract shelf file.path file.text with
  | mk found shelf' => dsimp only; split <;> rfl

/-- What is served of a component depends on its document alone. -/
theorem ofComponent_fst (shelf : Component.Shelf) (file : SourceUnit) :
    (ofComponent shelf file).1 =
      match Component.script? file.text with
      | .ok (some s) => ⟨file.path, s.content, if s.isTsx then .tsx else .ts, some ⟨file.text, s.span.start⟩⟩
      | _ => ⟨file.path, [], .ts, some ⟨file.text, 0⟩⟩ := by
  obtain ⟨script, -⟩ := Component.Shelf.extract_adds file.path file.text
  rw [ofComponent, ← script shelf]
  cases Component.extract shelf file.path file.text with
  | mk found left =>
    cases found with
    | error d => rfl
    | ok s => cases s <;> rfl

theorem ofComponent_path (shelf : Component.Shelf) (file : SourceUnit) : (ofComponent shelf file).1.path = file.path := by
  rw [ofComponent_fst]
  split <;> rfl

theorem ofComponent_faithful {shelf : Component.Shelf} (h : shelf.Faithful tree) {file : SourceUnit}
    (normal : file.path.normalize = file.path) (component : file.path.isComponent = true)
    (read : tree.read file.path = .ok file.text) :
    (ofComponent shelf file).2.Faithful tree ∧ (ofComponent shelf file).1.path = file.path ∧
      (ofComponent shelf file).1.Faithful tree := by
  obtain ⟨-, faithful, -⟩ := h.extract normal component read
  rw [← ofComponent_snd] at faithful
  have path := ofComponent_path shelf file
  refine ⟨faithful, path, by rw [path]; exact normal, file.text, by rw [path]; exact read, ?_, ?_⟩
  · intro plain
    simp [path, component] at plain
  · intro _ s script
    simp [ofComponent_fst, script]

end SourceUnit

namespace SourceHost

variable {tree : FileTree}

/-- A unit that is read is the file at the normal form of the path, and the shelf stays faithful. -/
theorem readUnit_faithful {shelf : Component.Shelf} (h : shelf.Faithful tree) (p : Path) :
    ((ofTree tree).readUnit shelf p).2.Faithful tree ∧
      ∀ u, ((ofTree tree).readUnit shelf p).1 = .ok (some u) → u.path = p.normalize ∧ u.Faithful tree := by
  rw [readUnit]
  cases read : tree.read p with
  | error f =>
    cases f <;> simp only [ofTree, read] <;> exact ⟨h, by simp⟩
  | ok document =>
    obtain ⟨again, name⟩ := FileTree.read_normalize read
    have normal := Path.normalize_normalize p
    simp only [ofTree, read]
    by_cases component : p.isComponent = true
    · rw [component] at name
      let file := SourceUnit.ofFile p document
      have settled : file.path.normalize = file.path := normal
      have named : file.path.isComponent = true := name
      obtain ⟨faithful, path, unit⟩ := SourceUnit.ofComponent_faithful h settled named again
      rw [if_pos component]
      refine ⟨faithful, fun u same => ?_⟩
      obtain rfl := Option.some.inj (Except.ok.inj same)
      exact ⟨path, unit⟩
    · rw [if_neg component]
      rw [Bool.not_eq_true] at component
      rw [component] at name
      refine ⟨h, fun u same => ?_⟩
      obtain rfl := Option.some.inj (Except.ok.inj same)
      refine ⟨rfl, normal, document, again, fun _ => ⟨rfl, rfl⟩, fun other => ?_⟩
      rw [SourceUnit.ofFile, name] at other
      contradiction

/-- A unit that is read has the path that the host gave it. -/
theorem readUnit_path {host : SourceHost} {shelf : Component.Shelf} {p : Path} {u : SourceUnit}
    (found : (host.readUnit shelf p).1 = .ok (some u)) : ∃ v, host.read p = .ok (some v) ∧ u.path = v.path := by
  rw [readUnit] at found
  cases read : host.read p with
  | error f => simp [read] at found
  | ok served =>
    cases served with
    | none => simp [read] at found
    | some v =>
      refine ⟨v, rfl, ?_⟩
      simp only [read] at found
      split_ifs at found
      · rw [← Option.some.inj (Except.ok.inj found), SourceUnit.ofComponent_path]
      · rw [← Option.some.inj (Except.ok.inj found)]

/-- The unit that is read does not depend on the shelf, and at most its frame is added to it. -/
theorem readUnit_adds {host : SourceHost} {p q : Path}
    (path : ∀ u, host.read p = .ok (some u) → u.path.normalize = q.normalize) :
    (∀ shelf shelf', (host.readUnit shelf p).1 = (host.readUnit shelf' p).1) ∧
      Component.Shelf.Adds q fun shelf => (host.readUnit shelf p).2 := by
  simp only [readUnit]
  cases read : host.read p with
  | error f => exact ⟨fun _ _ => rfl, Component.Shelf.Adds.nothing q⟩
  | ok found =>
    cases found with
    | none => exact ⟨fun _ _ => rfl, Component.Shelf.Adds.nothing q⟩
    | some u =>
      dsimp only
      split_ifs
      · obtain ⟨-, adds⟩ := Component.Shelf.extract_adds u.path u.text
        refine ⟨fun shelf shelf' => ?_, ?_⟩
        · rw [SourceUnit.ofComponent_fst shelf, SourceUnit.ofComponent_fst shelf']
        · simp only [SourceUnit.ofComponent_snd]
          exact adds.congr (path u read)
      · exact ⟨fun _ _ => rfl, Component.Shelf.Adds.nothing q⟩

theorem readUnit_keeps {host : SourceHost} {shelf : Component.Shelf} {q : Path} {f : Component.Frame}
    (h : shelf.get? q = some f) (p : Path) : (host.readUnit shelf p).2.get? q = some f := by
  cases read : host.read p with
  | error f => simpa only [readUnit, read] using h
  | ok found =>
    cases found with
    | none => simpa only [readUnit, read] using h
    | some u =>
      have path (v : SourceUnit) (read' : host.read p = .ok (some v)) : v.path.normalize = u.path.normalize := by
        rw [Option.some.inj (Except.ok.inj (read'.symm.trans read))]
      exact (readUnit_adds path).2.keeps h

end SourceHost

/-! ## Programs -/

namespace Program

variable {tree : FileTree}

def Faithful (p : Program) (tree : FileTree) : Prop := ∀ u ∈ p.units, u.unit.Faithful tree

/-- Reading files one after another keeps the shelf faithful, and so are the units. -/
theorem readAll_faithful {shelf : Component.Shelf} (h : shelf.Faithful tree) (files : List Path) :
    (readAll (.ofTree tree) shelf files).2.Faithful tree ∧
      ∀ u ∈ (readAll (.ofTree tree) shelf files).1, u.Faithful tree := by
  induction files generalizing shelf with
  | nil => exact ⟨h, by simp [readAll]⟩
  | cons p rest ih =>
    obtain ⟨first, units⟩ := SourceHost.readUnit_faithful h p
    obtain ⟨later, others⟩ := ih first
    rw [readAll]
    cases found : ((SourceHost.ofTree tree).readUnit shelf p).1 with
    | error f =>
      simp only [found]
      exact ⟨later, others⟩
    | ok u =>
      cases u with
      | none =>
        simp only [found]
        exact ⟨later, others⟩
      | some u =>
        simp only [found]
        refine ⟨later, fun v member => ?_⟩
        rcases List.mem_cons.1 member with rfl | next
        · exact (units v found).2
        · exact others v next

theorem build_faithful {read : Reader} {c : TsConfig} {p : Program} {shelf : Component.Shelf}
    (h : build read tree {} c = .ok (p, shelf)) : p.Faithful tree ∧ shelf.Faithful tree := by
  rw [build] at h
  obtain ⟨files, -, h⟩ := bind_eq_ok_iff.1 h
  have empty : Component.Shelf.Faithful {} tree := fun f member => by simp at member
  obtain ⟨faithful, units⟩ := readAll_faithful empty files
  obtain ⟨rfl, rfl⟩ := Prod.mk.inj (Except.ok.inj h)
  refine ⟨fun linked member => ?_, faithful⟩
  obtain ⟨u, inside, rfl⟩ := List.mem_map.1 member
  exact units u inside

theorem unit?_faithful {p : Program} (h : p.Faithful tree) {path : Path} (normal : path.normalize = path)
    {u : SourceUnit} (found : p.unit? path = some u) : u.path = path ∧ u.Faithful tree := by
  obtain ⟨linked, at_, rfl⟩ := Option.map_eq_some_iff.1 found
  have faithful := h linked (List.mem_reverse.1 (List.mem_of_find?_eq_some at_))
  refine ⟨?_, faithful⟩
  have same : linked.unit.path.same path.normalize = true := by simpa using List.find?_some at_
  rw [← faithful.1, Path.normalize_eq_of_same same, normal]

end Program

end ComponentLint
