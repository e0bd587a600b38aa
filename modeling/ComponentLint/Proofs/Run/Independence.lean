import ComponentLint.Proofs.Run.Confinement
import Mathlib.Data.List.Nodup

/-! Files of a pass do not see each other. Linting one is confined to what belongs to it, so what comes of a file is
what would come of it alone, and a file that cannot be linted is in nobody's way. -/
namespace ComponentLint

namespace Workspace

variable {p q : Path} {w : Workspace}

/-! ## A pass -/

section Pass

variable {write : FileWriter FileTree} {host : FileTree → SourceHost} (l : Linter) (program : Program)

theorem lintFiles_cons (p : Path) (rest : List Path) :
    w.lintFiles write l program (p :: rest) host =
      ((w.lintFile write l program p host).1.toList ++
          ((w.lintFile write l program p host).2.lintFiles write l program rest host).1,
        ((w.lintFile write l program p host).2.lintFiles write l program rest host).2) :=
  rfl

/-- A file that is not on the list cannot tell that the others were linted. -/
theorem lintFiles_others (separate : write.Separate) (serves : SourceHost.Serves host) {files : List Path}
    (there : ∀ p ∈ files, w.Holds p) (apart : ∀ p ∈ files, p.place ≠ q.place) :
    Agree q w (w.lintFiles write l program files host).2 := by
  induction files generalizing w with
  | nil => exact .refl q w
  | cons p rest ih =>
    have step := lintFile_confined l program separate serves p
    have here := there p (by simp)
    rw [lintFiles_cons]
    refine (step.others here (apart p (by simp))).trans (ih (fun r later => ?_) fun r later => apart r (by simp [later]))
    exact (there r (by simp [later])).alike (step.alike here)

/-- What comes of each file of a pass is what comes of it alone: the files before it leave it as it was, and the
files behind it leave it as it then is. -/
theorem lintFiles_own (separate : write.Separate) (serves : SourceHost.Serves host) {files : List Path}
    (once : (files.map Path.place).Nodup) (there : ∀ p ∈ files, w.Holds p) :
    (w.lintFiles write l program files host).1 =
        files.flatMap (fun p => (w.lintFile write l program p host).1.toList) ∧
      ∀ p ∈ files, Agree p (w.lintFile write l program p host).2 (w.lintFiles write l program files host).2 := by
  induction files generalizing w with
  | nil => exact ⟨rfl, by simp⟩
  | cons p rest ih =>
    rw [List.map_cons, List.nodup_cons] at once
    have step (r : Path) : Confined r fun w => w.lintFile write l program r host :=
      lintFile_confined l program separate serves r
    have here := there p (by simp)
    have apart (r : Path) (later : r ∈ rest) : p.place ≠ r.place := fun same =>
      once.1 (by rw [same]; exact List.mem_map_of_mem later)
    -- what linting `p` leaves is, for a file behind it, the state that it was in before
    have seen (r : Path) (later : r ∈ rest) : Agree r w (w.lintFile write l program p host).2 :=
      (step p).others here (apart r later)
    have still (r : Path) (later : r ∈ rest) : (w.lintFile write l program p host).2.Holds r :=
      (there r (by simp [later])).alike (seen r later).tree
    have alone (r : Path) (later : r ∈ rest) := (step r).same (there r (by simp [later])) (seen r later)
    obtain ⟨results, ends⟩ := ih once.2 still
    rw [lintFiles_cons]
    refine ⟨?_, fun r member => ?_⟩
    · rw [results, List.flatMap_cons, List.flatMap_congr fun r later => by rw [(alone r later).1]]
    · rcases List.mem_cons.1 member with rfl | later
      · exact lintFiles_others l program separate serves still fun q later => (apart q later).symm
      · exact (alone r later).2.trans (ends r later)

/-! ## Failures and the writer -/

/-- Looking at a file touches neither the files nor the writer. -/
theorem admits_keeps (w : Workspace) (p : Path) : (w.admits p).2.tree = w.tree ∧ (w.admits p).2.writer = w.writer := by
  by_cases component : p.isComponent = true
  · rw [admits_component component]
    exact ⟨rfl, rfl⟩
  · rw [admits, if_neg component]
    exact ⟨rfl, rfl⟩

/-- What keeps a file from being linted, with the message that tells of it. -/
inductive Hindered (write : FileWriter FileTree) (host : FileTree → SourceHost) (l : Linter) (program : Program)
    (w : Workspace) (p : Path) : String → Prop where
  | unreadable {f : IoFault} (component : p.isComponent = true) (read : w.tree.read p = .error f) :
      Hindered write host l program w p (HostFault.unreadable p f).message
  | duplicate {document : Text} {d : Component.DuplicateBlock} (component : p.isComponent = true)
      (read : w.tree.read p = .ok document) (twice : Component.script? document = .error d) :
      Hindered write host l program w p d.message
  | unserved {f : HostFault} (admitted : (w.admits p).1 = .ok true) (unknown : program.unit? p = none)
      (read : (host w.tree).read p = .error f) :
      Hindered write host l program w p (FileFault.unreadable f).message
  | unwritten {u : SourceUnit} {shelf : Component.Shelf} {text : Text} {f : IoFault}
      (admitted : (w.admits p).1 = .ok true)
      (taken : unitToLint (some program) (host w.tree) (w.admits p).2.shelf p = (.ok (some u), shelf))
      (fixed : (l.lintUnit (some program) u).written = some text)
      (refused : (write u.path (w.writer.activate.outgoing shelf u.path text) w.tree).1 = .error f) :
      Hindered write host l program w p (FileFault.unwritable u.path f).message

/-- A file that cannot be linted gives one result, which tells why, and no file is changed. -/
theorem lintFile_of_hindered (honest : write.Honest) {message : String} (h : Hindered write host l program w p message) :
    (w.lintFile write l program p host).1 = some (.internal p message) ∧
      (w.lintFile write l program p host).2.tree = w.tree := by
  obtain ⟨tree, writer⟩ := admits_keeps w p
  cases h with
  | unreadable component read =>
    rename_i f
    have entered : (w.admits p).1 = .error (HostFault.unreadable p f).message := by
      rw [admits_component component, read]
      rfl
    rw [lintFile_of_error l program entered]
    exact ⟨rfl, tree⟩
  | duplicate component read twice =>
    rename_i document d
    have entered : (w.admits p).1 = .error d.message := by
      rw [admits_component component, read]
      simp only [admission, twice]
    rw [lintFile_of_error l program entered]
    exact ⟨rfl, tree⟩
  | unserved admitted unknown read =>
    rename_i f
    have taken : (unitToLint (some program) (host (w.admits p).2.tree) (w.admits p).2.shelf p).1 = .error f := by
      rw [tree, unitToLint, Option.bind_some, unknown]
      simp only [SourceHost.readUnit, read]
    rw [lintFile_of_admitted l program admitted,
      lintUnitAt_of_error (w := { (w.admits p).2 with writer := (w.admits p).2.writer.activate }) l program taken]
    exact ⟨rfl, tree⟩
  | unwritten admitted taken fixed refused =>
    rename_i u shelf text f
    have found : (unitToLint (some program) (host (w.admits p).2.tree) (w.admits p).2.shelf p).1 = .ok (some u) := by
      rw [tree, taken]
    rw [lintFile_of_admitted l program admitted,
      lintUnitAt_of_unit (w := { (w.admits p).2 with writer := (w.admits p).2.writer.activate }) l program found]
    simp only [lintUnit, Outcome.deliver_eq fixed, Component.WriteBack.through, tree, writer, taken, refused]
    refine ⟨rfl, ?_⟩
    rcases honest.cases u.path (w.writer.activate.outgoing shelf u.path text) w.tree with ⟨f', failed⟩ | stored
    · rw [failed]
    · rw [stored] at refused
      contradiction

theorem lintUnitAt_writer : (w.lintUnitAt write l program p host).2.writer = w.writer := by
  cases found : (unitToLint (some program) (host w.tree) w.shelf p).1 with
  | error f => rw [lintUnitAt_of_error l program found]
  | ok u =>
    cases u with
    | none => rw [lintUnitAt_of_none l program found]
    | some u =>
      rw [lintUnitAt_of_unit l program found]
      rfl

/-- On every branch the writer is as inactive as it was. -/
theorem lintFile_writer (inactive : w.writer.active = false) : (w.lintFile write l program p host).2.writer = w.writer := by
  obtain ⟨-, writer⟩ := admits_keeps w p
  cases admitted : (w.admits p).1 with
  | error message => rw [lintFile_of_error l program admitted, writer]
  | ok admits =>
    cases admits with
    | false => rw [lintFile_of_none l program admitted, writer]
    | true =>
      rw [lintFile_of_admitted l program admitted]
      dsimp only
      rw [lintUnitAt_writer, writer, Component.WriteBack.drop_activate, ← inactive]

theorem lintFiles_writer (inactive : w.writer.active = false) (files : List Path) :
    (w.lintFiles write l program files host).2.writer = w.writer := by
  induction files generalizing w with
  | nil => rfl
  | cons p rest ih =>
    have first : (w.lintFile write l program p host).2.writer = w.writer := lintFile_writer l program inactive
    rw [lintFiles_cons]
    dsimp only
    rw [ih (by rw [first, inactive]), first]

/-- Files are linted independently of each other: whichever of them are linted in a pass, and in whatever order, the
result of a file and what is then in it are those of the file alone. One that fails gives one result, which tells of
it, and keeps its content; and the writer is never left active. All this holds however the linter reads scripts. -/
theorem lintFiles_independent (separate : write.Separate) (serves : SourceHost.Serves host) {files : List Path}
    (distinct : (files.map (·.normalize)).Nodup)
    (there : ∀ p ∈ files, p.isAbsolute = true ∧ w.tree.isFile p = true) :
    (∀ part : List Path, part.Nodup → part ⊆ files →
      (w.lintFiles write l program part host).1 =
          part.flatMap (fun p => (w.lintFile write l program p host).1.toList) ∧
        ∀ p ∈ part, (w.lintFiles write l program part host).2.tree.lookup p =
          (w.lintFile write l program p host).2.tree.lookup p) ∧
    (∀ p message, Hindered write host l program w p message →
      (w.lintFile write l program p host).1 = some (.internal p message) ∧
        (w.lintFile write l program p host).2.tree = w.tree) ∧
    (w.writer.active = false →
      (∀ p, (w.lintFile write l program p host).2.writer.active = false) ∧
        ∀ part, (w.lintFiles write l program part host).2.writer.active = false) := by
  refine ⟨fun part once among => ?_, fun p message => lintFile_of_hindered l program separate.honest,
    fun inactive => ⟨fun p => ?_, fun part => ?_⟩⟩
  · have places : (part.map Path.place).Nodup := by
      refine List.Nodup.map_on (fun p here q also same => ?_) once
      refine List.inj_on_of_nodup_map distinct (among here) (among also) ?_
      rw [Path.normalize_absolute (there p (among here)).1, Path.normalize_absolute (there q (among also)).1, same]
    have holds : ∀ p ∈ part, w.Holds p := by
      intro p here
      obtain ⟨c, -, found⟩ := FileTree.isFile_iff.1 (there p (among here)).2
      exact ⟨c, found⟩
    obtain ⟨results, ends⟩ := lintFiles_own l program separate serves places holds
    exact ⟨results, fun p here => (ends p here).tree.lookup (ends p here).node⟩
  · rw [lintFile_writer l program inactive, inactive]
  · rw [lintFiles_writer l program inactive, inactive]

end Pass

theorem lintFiles_independent_project :
    let a : Path := ⟨"/a.vue".toList⟩
    let b : Path := ⟨"/b.ts".toList⟩
    let c : Path := ⟨"/c.ts".toList⟩
    let document : Text := "<script></script>\n<script></script>".toList
    let w : Workspace := { tree := ⟨[(["a.vue".toList], .file (.text document)), (["b.ts".toList], .file .binary),
      (["c.ts".toList], .file (.text "import a from 'a'\nb()\n".toList))]⟩ }
    let l : Linter := { rules := [UnusedImports.rule] }
    let program : Program := ⟨.ofTable ⟨['/']⟩ none, none, []⟩
    (w.lintFiles FileTree.writer l program [b, c, a]).1.map (fun r => (r.path, r.fixesApplied)) =
        [(b, 0), (c, 1), (a, 0)] ∧
      (∀ p ∈ [b, c, a], (w.lintFiles FileTree.writer l program [b, c, a]).2.tree.lookup p =
        (w.lintFile FileTree.writer l program p).2.tree.lookup p) ∧
      (w.lintFile FileTree.writer l program b).1 =
        some (.internal b (FileFault.unreadable (.unreadable b .notText)).message) ∧
      (w.lintFiles FileTree.writer l program [b, c, a]).2.writer.active = false := by
  intro a b c document w l program
  have distinct : ([a, b, c].map (·.normalize)).Nodup := by decide +kernel
  have there : ∀ p ∈ [a, b, c], p.isAbsolute = true ∧ w.tree.isFile p = true := by decide +kernel
  obtain ⟨apart, hindered, inactive⟩ :=
    lintFiles_independent l program FileTree.writer_separate SourceHost.ofTree_serves distinct there
  obtain ⟨results, ends⟩ := apart [b, c, a] (by decide +kernel) (by simp)
  have unread : Hindered FileTree.writer .ofTree l program w b (FileFault.unreadable (.unreadable b .notText)).message :=
    .unserved (by decide +kernel) (by decide +kernel) (by decide +kernel)
  refine ⟨?_, ends, (hindered b _ unread).1, (inactive rfl).2 [b, c, a]⟩
  rw [results]
  decide +kernel

end Workspace

namespace LintArgs

/-- In a run that succeeds, what comes of a discovered file is what comes of it alone. -/
theorem runThrough_own {a : LintArgs} {write : FileWriter FileTree} (separate : write.Separate)
    {tree tree' : FileTree} {cwd : Path} {parse : TypeScript.Parsing} {out : RunResult}
    (h : a.runThrough write tree cwd parse = (.ok out, tree')) :
    ∃ plan, a.plan tree cwd.normalize parse = .ok plan ∧
      let w : Workspace := { tree := tree, shelf := plan.shelf }
      out.report.results =
          plan.files.flatMap (fun p => (w.lintFile write plan.linter plan.program p).1.toList) ∧
        ∀ p ∈ plan.files, tree'.lookup p = (w.lintFile write plan.linter plan.program p).2.tree.lookup p := by
  obtain ⟨plan, planned, rfl, rfl⟩ := runThrough_eq_ok h
  refine ⟨plan, planned, ?_⟩
  intro w
  obtain ⟨config, project, -, -, discovered, -, -⟩ := plan_eq_ok planned
  obtain ⟨once, normal⟩ := Discovery.discover_normal discovered
  have places : (plan.files.map Path.place).Nodup :=
    List.Nodup.map_on (fun p here q also same =>
      Path.eq_of_place (normal p here).1 (normal q also).1 (normal p here).2 (normal q also).2 same) once
  have holds : ∀ p ∈ plan.files, w.Holds p := by
    intro p here
    obtain ⟨c, -, found⟩ := FileTree.isFile_iff.1 (Discovery.discover_isFile discovered p here)
    exact ⟨c, found⟩
  obtain ⟨results, ends⟩ := Workspace.lintFiles_own plan.linter plan.program separate SourceHost.ofTree_serves places
    holds
  exact ⟨(Report.ofResults_results _).trans results, fun p here => (ends p here).tree.lookup (ends p here).node⟩

end LintArgs

end ComponentLint
