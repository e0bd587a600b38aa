import ComponentLint.Run.Lint
import ComponentLint.Proofs.Files.Rewriting
import ComponentLint.Proofs.Lint.Reporting
import ComponentLint.Proofs.Report.Tally
import ComponentLint.Proofs.Run.Sources

/-! What a run does to the files. The units, the frames and the files that are still to come are all faithful to
the tree that the run started with, and linting one file keeps them so: it changes at most that file, and then
to the document of its result, which keeps what stands around the script. -/
namespace ComponentLint

/-- A writer that stores a text whole, or fails and leaves the files as they are. -/
def FileWriter.Honest (write : FileWriter FileTree) : Prop :=
  ∀ path text tree, write path text tree = FileTree.writer path text tree ∨
    ∃ f, write path text tree = (.error f, tree)

theorem FileTree.writer_honest : FileTree.writer.Honest := fun _ _ _ => .inl rfl

/-- A result whose document has, for a component, the script exchanged for a trimmed one between line feeds. -/
def FileResult.KeepsSides (r : FileResult) (tree : FileTree) : Prop :=
  r.path.isComponent = true → ∃ original s before after script, tree.read r.path = .ok original ∧
    Component.script? original = .ok (some s) ∧ original = before ++ (s.content ++ after) ∧
    before.byteSize = s.span.start ∧ r.document = before ++ ['\n'] ++ Text.trim script ++ ['\n'] ++ after

/-- If a component is at the path, it has a script, and the frame around it is on the shelf. -/
def Component.Shelf.Ready (shelf : Component.Shelf) (tree : FileTree) (path : Path) : Prop :=
  path.isComponent = true → (∃ f, shelf.get? path = some f) ∧
    ∃ document s, tree.read path = .ok document ∧ Component.script? document = .ok (some s)

/-! ## One unit -/

section Unit

variable {tree : FileTree} {shelf : Component.Shelf} {u : SourceUnit}

/-- What goes out for a component is the document of its result, in which the sides of the script are kept. -/
theorem SourceUnit.Faithful.lint_component (h : u.Faithful tree) (shelved : shelf.Faithful tree)
    (ready : shelf.Ready tree u.path) {writer : Component.WriteBack} (active : writer.active = true)
    {inspect : Inspection} {fixes : Bool} (component : u.path.isComponent = true)
    (some_ : (u.draft inspect fixes).applied ≠ 0) :
    ∃ text r, u.lint inspect fixes = ⟨some text, r⟩ ∧ r.path = u.path ∧ 0 < r.fixesApplied ∧
      writer.outgoing shelf u.path text = r.document ∧ r.KeepsSides tree := by
  obtain ⟨normal, document, read, -, composite⟩ := h
  obtain ⟨⟨f, found⟩, document', s, read', script⟩ := ready component
  obtain rfl : document' = document := Except.ok.inj (read'.symm.trans read)
  obtain ⟨content, origin⟩ := composite component s script
  obtain ⟨before, after, whole, start, -⟩ := Component.script?_split script
  obtain ⟨r, linted, path, counted, stands, -⟩ := lint_composite origin (by rw [content]; exact whole) start some_
  obtain ⟨member, key⟩ := Component.Shelf.get?_eq_some found
  obtain ⟨-, document'', read'', holds⟩ := shelved f member
  rw [key, normal] at read''
  obtain rfl : document'' = document' := Except.ok.inj (read''.symm.trans read)
  obtain ⟨left, right⟩ := holds.sides script whole start
  have around : f.wrap (u.draft inspect fixes).text = r.document := by
    rw [stands, Component.Frame.wrap, Component.Frame.wrap, left, right]
  refine ⟨_, r, linted, path, by omega, ?_, fun _ => ?_⟩
  · simp [Component.WriteBack.outgoing, active, Component.Shelf.wrap?, found, around]
  · exact ⟨_, s, before, after, _, by rw [path]; exact read, script, whole, start, stands⟩

/-- What goes out for a whole file is the document of its result, for there is no frame under its path. -/
theorem SourceUnit.Faithful.lint_file (h : u.Faithful tree) (shelved : shelf.Faithful tree)
    {writer : Component.WriteBack} {inspect : Inspection} {fixes : Bool} (file : u.path.isComponent = false)
    (some_ : (u.draft inspect fixes).applied ≠ 0) :
    ∃ text r, u.lint inspect fixes = ⟨some text, r⟩ ∧ r.path = u.path ∧ 0 < r.fixesApplied ∧
      writer.outgoing shelf u.path text = r.document ∧ r.KeepsSides tree := by
  obtain ⟨normal, document, read, plain, -⟩ := h
  obtain ⟨-, origin⟩ := plain file
  obtain ⟨r, linted, path, counted, stands, -⟩ := lint_plain origin some_
  have missing : shelf.get? u.path = none := by
    cases found : shelf.get? u.path with
    | none => rfl
    | some f =>
      obtain ⟨member, key⟩ := Component.Shelf.get?_eq_some found
      have name := (shelved f member).1
      rw [key, normal, file] at name
      contradiction
  refine ⟨_, r, linted, path, by omega, ?_, fun other => ?_⟩
  · simp [Component.WriteBack.outgoing, Component.Shelf.wrap?, missing, stands]
  · rw [path, file] at other
    contradiction

/-- A unit that is written is reported with the document that goes out, which keeps the sides of the script. -/
theorem SourceUnit.Faithful.lint (h : u.Faithful tree) (shelved : shelf.Faithful tree)
    (ready : shelf.Ready tree u.path) {writer : Component.WriteBack} (active : writer.active = true)
    (inspect : Inspection) (fixes : Bool) :
    (u.lint inspect fixes).written = none ∧ (u.lint inspect fixes).result.fixesApplied = 0 ∨
      fixes = true ∧ ∃ text r, u.lint inspect fixes = ⟨some text, r⟩ ∧ r.path = u.path ∧ 0 < r.fixesApplied ∧
        writer.outgoing shelf u.path text = r.document ∧ r.KeepsSides tree := by
  by_cases none_ : (u.draft inspect fixes).applied = 0
  · left
    rw [SourceUnit.lint, if_pos none_]
    exact ⟨rfl, rfl⟩
  · right
    have fixing : fixes = true := by
      cases fixes with
      | true => rfl
      | false => exact absurd (u.draft_applied_of_not_fixes inspect) none_
    refine ⟨fixing, ?_⟩
    by_cases component : u.path.isComponent = true
    · exact h.lint_component shelved ready active component none_
    · rw [Bool.not_eq_true] at component
      exact h.lint_file shelved component none_

end Unit

/-! ## One file -/

/-- What linting the file at a path comes to: nothing is fixed and the files stay as they are, or the file is
rewritten to the document of its result. -/
inductive FileChange (tree : FileTree) (fixes : Bool) (path : Path) (t : FileTree) :
    Option FileResult → FileTree → Prop where
  | kept (h : ∀ r, result = some r → r.fixesApplied = 0) : FileChange tree fixes path t result t
  | fixed (r : FileResult) (fixing : fixes = true) (here : r.path = path) (counted : 0 < r.fixesApplied)
      (reads : t'.read path = .ok r.document) (rewritten : FileTree.Rewritten (· = path) t t')
      (sides : r.KeepsSides tree) : FileChange tree fixes path t (some r) t'

section Change

variable {tree t t' : FileTree} {fixes : Bool} {path : Path} {result : Option FileResult}

theorem FileChange.eq_of_not_fixes (h : FileChange tree false path t result t') : t' = t := by
  cases h with
  | kept unfixed => rfl
  | fixed r fixing here counted reads rewritten sides => exact absurd fixing Bool.false_ne_true

theorem FileChange.read_other (h : FileChange tree fixes path t result t') {q : Path} (apart : path.place ≠ q.place) :
    t'.read q = t.read q := by
  cases h with
  | kept unfixed => rfl
  | fixed r fixing here counted reads rewritten sides =>
    refine rewritten.read fun p same => ?_
    rw [same]
    exact apart

theorem FileChange.rewritten (h : FileChange tree fixes path t result t') :
    FileTree.Rewritten (fun p => p = path ∧ ∃ r, result = some r ∧ r.path = p ∧ 0 < r.fixesApplied) t t' := by
  cases h with
  | kept unfixed => exact .refl _ _
  | fixed r fixing here counted reads rewritten sides =>
    refine rewritten.mono fun p same => ?_
    exact ⟨same, r, rfl, here.trans same.symm, counted⟩

theorem FileChange.of_fixed (h : FileChange tree fixes path t result t') {r : FileResult} (same : result = some r)
    (counted : 0 < r.fixesApplied) : r.path = path ∧ t'.read path = .ok r.document ∧ r.KeepsSides tree := by
  cases h with
  | kept unfixed =>
    have none_ := unfixed r same
    omega
  | fixed r' fixing here counted reads rewritten sides =>
    obtain rfl := Option.some.inj same
    exact ⟨here, reads, sides⟩

end Change

theorem FileChange.internal (tree : FileTree) (fixes : Bool) (path at_ : Path) (t : FileTree) (message : String) :
    FileChange tree fixes path t (some (.internal at_ message)) t := by
  refine .kept fun r same => ?_
  rw [← Option.some.inj same]
  rfl

namespace Workspace

variable {write : FileWriter FileTree} {tree : FileTree} {w : Workspace} (l : Linter) (program : Program)

/-- Linting a unit of the tree rewrites at most its file. -/
theorem lintUnit_change (honest : write.Honest) (shelved : w.shelf.Faithful tree) {u : SourceUnit}
    (faithful : u.Faithful tree) (same : w.tree.read u.path = tree.read u.path) (active : w.writer.active = true)
    (ready : w.shelf.Ready tree u.path) :
    (w.lintUnit write l program u).2.shelf = w.shelf ∧
      ((∃ f, (w.lintUnit write l program u).1 = .error f) ∧ (w.lintUnit write l program u).2.tree = w.tree ∨
        ∃ r, (w.lintUnit write l program u).1 = .ok r ∧
          FileChange tree l.fixes u.path w.tree (some r) (w.lintUnit write l program u).2.tree) := by
  refine ⟨rfl, ?_⟩
  have inspected : l.lintUnit (some program) u = u.lint (l.inspect (Linter.programFor (some program) u)) l.fixes := rfl
  rcases faithful.lint shelved ready active (l.inspect (Linter.programFor (some program) u)) l.fixes with
    ⟨none_, unfixed⟩ | ⟨fixing, text, r, linted, path, counted, goes, sides⟩
  · right
    refine ⟨(l.lintUnit (some program) u).result, ?_, ?_⟩
    · rw [lintUnit, Outcome.deliver, inspected, none_]
    · rw [lintUnit, Outcome.deliver, inspected, none_]
      refine .kept fun r same => ?_
      rw [← Option.some.inj same, unfixed]
  · rw [← inspected] at linted
    obtain ⟨-, document, read, -⟩ := faithful
    rw [← same] at read
    obtain ⟨t', written, reads, -, rewritten⟩ := FileTree.write_of_read read r.document
    obtain ⟨good, bad⟩ := SourceUnit.deliver_written r text u.path (w.writer.through w.shelf write) w.tree
    have handed : w.writer.through w.shelf write u.path text w.tree = write u.path r.document w.tree := by
      rw [Component.WriteBack.through, goes]
    rcases honest u.path r.document w.tree with stored | ⟨f, failed⟩
    · have stored' : write u.path r.document w.tree = (.ok (), t') := by
        rw [stored, FileTree.writer, written]
      have delivered := good t' (handed.trans stored')
      right
      refine ⟨r, ?_, ?_⟩
      · rw [lintUnit, linted, delivered]
      · rw [lintUnit, linted, delivered]
        exact .fixed r fixing path counted reads rewritten sides
    · have delivered := bad f w.tree (handed.trans failed)
      left
      refine ⟨⟨.unwritable u.path f, ?_⟩, ?_⟩
      · rw [lintUnit, linted, delivered]
      · rw [lintUnit, linted, delivered]

/-- The unit that is linted at a path is the file there, whether the program has it or the host reads it. -/
theorem unitToLint_faithful {program : Program} (known : program.Faithful tree) (shelved : w.shelf.Faithful tree)
    {path : Path} (normal : path.normalize = path) (same : w.tree.read path = tree.read path) :
    (unitToLint (some program) (.ofTree w.tree) w.shelf path).2.Faithful tree ∧
      (∀ f, w.shelf.get? path = some f →
        (unitToLint (some program) (.ofTree w.tree) w.shelf path).2.get? path = some f) ∧
      ∀ u, (unitToLint (some program) (.ofTree w.tree) w.shelf path).1 = .ok (some u) →
        u.path = path ∧ u.Faithful tree := by
  rw [unitToLint, Option.bind_some]
  cases found : program.unit? path with
  | some u =>
    refine ⟨shelved, fun f held => held, fun v taken => ?_⟩
    obtain rfl := Option.some.inj (Except.ok.inj taken)
    exact Program.unit?_faithful known normal found
  | none =>
    have read : (SourceHost.ofTree w.tree).readUnit w.shelf path = (SourceHost.ofTree tree).readUnit w.shelf path := by
      simp only [SourceHost.readUnit, SourceHost.ofTree, same]
    dsimp only
    rw [read]
    obtain ⟨faithful, units⟩ := SourceHost.readUnit_faithful shelved path
    refine ⟨faithful, fun f held => SourceHost.readUnit_keeps held path, fun u taken => ?_⟩
    rw [normal] at units
    exact units u taken

theorem lintUnitAt_change {program : Program} (honest : write.Honest) (known : program.Faithful tree)
    (shelved : w.shelf.Faithful tree) {path : Path} (normal : path.normalize = path) (same : w.tree.read path = tree.read path)
    (active : w.writer.active = true)
    (ready : w.shelf.Ready tree path) :
    (w.lintUnitAt write l program path).2.shelf.Faithful tree ∧
      FileChange tree l.fixes path w.tree (w.lintUnitAt write l program path).1
        (w.lintUnitAt write l program path).2.tree := by
  obtain ⟨faithful, keeps, units⟩ := unitToLint_faithful known shelved normal same
  rw [lintUnitAt]
  cases taken : unitToLint (some program) (.ofTree w.tree) w.shelf path with
  | mk found shelf =>
    rw [taken] at faithful keeps units
    dsimp only at faithful keeps units ⊢
    cases found with
    | error f => exact ⟨faithful, .internal ..⟩
    | ok u =>
      cases u with
      | none => exact ⟨faithful, .kept (by simp)⟩
      | some u =>
        obtain ⟨rfl, isFile⟩ := units u rfl
        have ready' : shelf.Ready tree u.path := by
          intro component
          obtain ⟨⟨f, here⟩, script⟩ := ready component
          exact ⟨⟨f, keeps f here⟩, script⟩
        obtain ⟨shelf_, change⟩ :=
          lintUnit_change (w := { w with shelf := shelf }) l program honest faithful isFile same active ready'
        cases linted : lintUnit write { w with shelf := shelf } l program u with
        | mk result w' =>
          rw [linted] at shelf_ change
          dsimp only at shelf_ change ⊢
          rcases change with ⟨⟨f, rfl⟩, kept⟩ | ⟨r, rfl, change⟩
          · rw [linted]
            dsimp only
            rw [shelf_, kept]
            exact ⟨faithful, .internal ..⟩
          · rw [linted]
            dsimp only
            rw [shelf_]
            exact ⟨faithful, change⟩

/-- A file is looked at without being changed, and a component that is admitted has a script and a frame. -/
theorem admits_faithful (shelved : w.shelf.Faithful tree) {path : Path} (normal : path.normalize = path)
    (same : w.tree.read path = tree.read path) :
    (w.admits path).2.tree = w.tree ∧ (w.admits path).2.shelf.Faithful tree ∧
      ((w.admits path).1 = .ok true → (w.admits path).2.shelf.Ready tree path) := by
  by_cases component : path.isComponent = true
  · rw [admits, if_pos component, script]
    cases read : w.tree.read path with
    | error f => exact ⟨rfl, shelved, by simp [Except.map]⟩
    | ok document =>
      obtain ⟨found, faithful, held⟩ := shelved.extract normal component (same.symm.trans read)
      dsimp only
      rw [found]
      cases script : Component.script? document with
      | error d => exact ⟨rfl, faithful, by simp [Except.map]⟩
      | ok s =>
        cases s with
        | none => exact ⟨rfl, faithful, by simp [Except.map]⟩
        | some s => exact ⟨rfl, faithful, fun _ _ => ⟨held s script, document, s, same.symm.trans read, script⟩⟩
  · rw [admits, if_neg component]
    exact ⟨rfl, shelved, fun _ other => absurd other component⟩

theorem lintFile_change {program : Program} (honest : write.Honest) (known : program.Faithful tree)
    (shelved : w.shelf.Faithful tree) {path : Path} (normal : path.normalize = path)
    (same : w.tree.read path = tree.read path) :
    (w.lintFile write l program path).2.shelf.Faithful tree ∧
      FileChange tree l.fixes path w.tree (w.lintFile write l program path).1
        (w.lintFile write l program path).2.tree := by
  obtain ⟨untouched, faithful, held⟩ := admits_faithful shelved normal same
  rw [lintFile]
  cases admitted : w.admits path with
  | mk verdict w' =>
    rw [admitted] at untouched faithful held
    dsimp only at untouched faithful held ⊢
    rw [← untouched] at same ⊢
    cases verdict with
    | error message => exact ⟨faithful, .internal ..⟩
    | ok admits =>
      cases admits with
      | false => exact ⟨faithful, .kept (by simp)⟩
      | true =>
        exact lintUnitAt_change (w := { w' with writer := w'.writer.activate }) l honest known faithful normal same rfl
          (held rfl)

/-- The files of which a result says that they were fixed. -/
def FixedIn (results : List FileResult) (files : List Path) (p : Path) : Prop :=
  p ∈ files ∧ ∃ r ∈ results, r.path = p ∧ 0 < r.fixesApplied

/-- Linting files one after another rewrites those that are fixed, each to the document of its result. The files
that are still to come are as they were, since no two of them are in one place. -/
theorem lintFiles_integrity {program : Program} (honest : write.Honest) (known : program.Faithful tree)
    {files : List Path} (once : files.Nodup) (normal : ∀ p ∈ files, p.isAbsolute = true ∧ p.normalize = p)
    (shelved : w.shelf.Faithful tree) (pending : ∀ p ∈ files, w.tree.read p = tree.read p) :
    (l.fixes = false → (w.lintFiles write l program files).2.tree = w.tree) ∧
      FileTree.Rewritten (FixedIn (w.lintFiles write l program files).1 files) w.tree
        (w.lintFiles write l program files).2.tree ∧
      ∀ r ∈ (w.lintFiles write l program files).1, 0 < r.fixesApplied → r.path ∈ files ∧
        (w.lintFiles write l program files).2.tree.read r.path = .ok r.document ∧ r.KeepsSides tree := by
  induction files generalizing w with
  | nil => exact ⟨fun _ => rfl, .refl _ _, by simp [lintFiles]⟩
  | cons path rest ih =>
    obtain ⟨fresh, once⟩ := List.nodup_cons.1 once
    obtain ⟨absolute, settled⟩ := normal path (by simp)
    obtain ⟨faithful, change⟩ := lintFile_change l honest known shelved settled (pending path (by simp))
    rw [lintFiles]
    cases first : w.lintFile write l program path with
    | mk result w₁ =>
      obtain ⟨tree₁, shelf₁, writer₁⟩ := w₁
      rw [first] at faithful change
      dsimp only at faithful change ⊢
      have apart (q : Path) (later : q ∈ rest) : path.place ≠ q.place := by
        intro here
        obtain ⟨absolute', settled'⟩ := normal q (by simp [later])
        rw [Path.eq_of_place absolute absolute' settled settled' here] at fresh
        contradiction
      have pending₁ (q : Path) (later : q ∈ rest) : tree₁.read q = tree.read q := by
        rw [← pending q (by simp [later])]
        exact change.read_other (apart q later)
      obtain ⟨still, rewritten₂, results₂⟩ := ih (w := ⟨tree₁, shelf₁, writer₁⟩) once
        (fun p later => normal p (by simp [later])) faithful pending₁
      cases others : Workspace.lintFiles write ⟨tree₁, shelf₁, writer₁⟩ l program rest with
      | mk results w₂ =>
        rw [others] at still rewritten₂ results₂
        dsimp only at still rewritten₂ results₂ ⊢
        have onward : FileTree.Rewritten (FixedIn (result.toList ++ results) (path :: rest)) tree₁ w₂.tree := by
          refine rewritten₂.mono fun p ⟨later, r, member, fixed⟩ => ?_
          exact ⟨by simp [later], r, by simp [member], fixed⟩
        refine ⟨fun none_ => ?_, (change.rewritten.mono ?_).trans onward, fun r member fixed => ?_⟩
        · rw [none_] at change
          exact (still none_).trans change.eq_of_not_fixes
        · rintro p ⟨rfl, r, here, fixed⟩
          exact ⟨by simp, r, by simp [here], fixed⟩
        · rcases List.mem_append.1 member with now | later
          · obtain ⟨here, reads, sides⟩ := change.of_fixed (Option.mem_toList.1 now) fixed
            have untouched : w₂.tree.read path = tree₁.read path :=
              rewritten₂.read fun q ⟨later, _⟩ => (apart q later).symm
            rw [here, untouched]
            exact ⟨by simp, reads, sides⟩
          · obtain ⟨onList, found⟩ := results₂ r later fixed
            exact ⟨by simp [onList], found⟩

end Workspace

namespace LintArgs

theorem plan_eq_ok {a : LintArgs} {tree : FileTree} {cwd : Path} {parse : TypeScript.Parsing} {p : Plan}
    (h : a.plan tree cwd parse = .ok p) :
    ∃ config project, a.loadConfig tree cwd = .ok config ∧ TsConfig.load tree (cwd.join a.project) = .ok project ∧
      Discovery.discover tree cwd a.patternsOrDefault config.exclude = .ok p.files ∧
      Program.build (.scanWith parse) tree {} project = .ok (p.program, p.shelf) ∧
      p.linter = .ofConfig config (!a.noFix) parse := by
  obtain ⟨config, loaded, rest⟩ := bind_eq_ok_iff.1 h
  obtain ⟨project, read, rest⟩ := bind_eq_ok_iff.1 rest
  obtain ⟨files, discovered, rest⟩ := bind_eq_ok_iff.1 rest
  obtain ⟨⟨program, shelf⟩, built, rest⟩ := bind_eq_ok_iff.1 rest
  obtain rfl := Except.ok.inj rest
  rw [mapError_eq_ok_iff] at read discovered built
  exact ⟨config, project, loaded, read, discovered, built, rfl⟩

/-- A run that succeeds changes no file but those that it discovered and of which it reports fixes, and none if
it makes no fixes. Each of these files then is the document of its result; in a component everything around the
script is as it was, and the script is a trimmed one between two line feeds. It does not matter how scripts are read. -/
theorem runThrough_integrity {a : LintArgs} {write : FileWriter FileTree} (honest : write.Honest)
    {tree tree' : FileTree} {cwd : Path} {parse : TypeScript.Parsing} {out : RunResult}
    (h : a.runThrough write tree cwd parse = (.ok out, tree')) :
    ∃ config files, a.loadConfig tree cwd.normalize = .ok config ∧
      Discovery.discover tree cwd.normalize a.patternsOrDefault config.exclude = .ok files ∧
      (a.noFix = true → tree' = tree) ∧
      (∀ place, tree'.node? place = tree.node? place ∨
        ∃ r ∈ out.report.results, r.path ∈ files ∧ 0 < r.fixesApplied ∧ tree.target r.path = .ok place) ∧
      ∀ r ∈ out.report.results, 0 < r.fixesApplied → r.path ∈ files ∧ tree'.read r.path = .ok r.document ∧
        (r.path.isComponent = true → ∃ original s before after script, tree.read r.path = .ok original ∧
          Component.script? original = .ok (some s) ∧ original = before ++ (s.content ++ after) ∧
          before.byteSize = s.span.start ∧
          r.document = before ++ ['\n'] ++ Text.trim script ++ ['\n'] ++ after) := by
  obtain ⟨p, planned, rfl, rfl⟩ := runThrough_eq_ok h
  obtain ⟨config, project, loaded, -, discovered, built, linter⟩ := plan_eq_ok planned
  obtain ⟨known, shelved⟩ := Program.build_faithful built
  obtain ⟨once, normal⟩ := Discovery.discover_normal discovered
  obtain ⟨still, rewritten, results⟩ := Workspace.lintFiles_integrity (w := ⟨tree, p.shelf, {}⟩) p.linter honest known
    once normal shelved fun _ _ => rfl
  have reported (found : List FileResult) : (a.conclude cwd.normalize found).report.results = found :=
    Report.ofResults_results found
  rw [reported]
  refine ⟨config, p.files, loaded, discovered, fun noFix => still ?_, fun place => ?_, results⟩
  · simp [linter, Linter.ofConfig, noFix]
  · rcases rewritten place with same | ⟨⟨p, ⟨member, r, here, rfl, counted⟩, leads⟩, -⟩
    · exact .inl same
    · exact .inr ⟨r, here, member, counted, leads⟩

theorem runThrough_integrity_component :
    let tree : FileTree := ⟨[(["tsconfig.json".toList], .file (.text "\x7b\x7d".toList)),
      (["A.vue".toList], .file (.text "<script lang='ts'>import a from 'a'\nb()</script>".toList))]⟩
    let a : LintArgs := { patterns := ["*.vue".toList], silent := true }
    ∃ out tree' r, a.runThrough FileTree.writer tree ⟨['/']⟩ = (.ok out, tree') ∧ out.report.results = [r] ∧
      0 < r.fixesApplied ∧ tree'.read r.path = .ok r.document := by
  intro tree a
  have fixed : (a.runThrough FileTree.writer tree ⟨['/']⟩).1.toOption.map
      (fun out => out.report.results.map FileResult.fixesApplied) = some [1] := by
    decide +kernel
  cases ran : a.runThrough FileTree.writer tree ⟨['/']⟩ with
  | mk outcome tree' =>
    rw [ran] at fixed
    cases outcome with
    | error f => simp [Except.toOption] at fixed
    | ok out =>
      obtain ⟨config, files, -, -, -, -, results⟩ := runThrough_integrity FileTree.writer_honest ran
      have counts : out.report.results.map FileResult.fixesApplied = [1] := by simpa [Except.toOption] using fixed
      obtain ⟨r, others, split, counted, none_⟩ := List.map_eq_cons_iff.1 counts
      obtain rfl := List.map_eq_nil_iff.1 none_
      have some_ : 0 < r.fixesApplied := by omega
      obtain ⟨-, reads, -⟩ := results r (by rw [split]; simp) some_
      exact ⟨out, tree', r, rfl, split, some_, reads⟩

end LintArgs

end ComponentLint
