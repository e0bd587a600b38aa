import ComponentLint.Proofs.Run.Integrity

/-! What linting a file looks at and what it changes. Between two files of a pass the tree, the shelf and the writer
are handed on, but of these only what stands at the place of the path and the frame under it belong to a file: the
rest is neither looked at nor changed. Each step is confined so, and so are steps one after another. -/
namespace ComponentLint

/-- A host that serves at a path the file there, whatever else the tree holds. -/
structure SourceHost.Serves (host : FileTree → SourceHost) : Prop where
  path : ∀ {t : FileTree} {p : Path} {u : SourceUnit}, (host t).read p = .ok (some u) → u.path.same p.normalize = true
  read : ∀ {t t' : FileTree} {p : Path}, FileTree.Alike t t' → t'.node? p.place = t.node? p.place →
    (host t').read p = (host t).read p

theorem SourceHost.ofTree_serves : Serves ofTree where
  path {t p u} h := by
    cases read : t.read p with
    | error f => cases f <;> simp [ofTree, read] at h
    | ok text =>
      simp only [ofTree, read] at h
      rw [← Option.some.inj (Except.ok.inj h)]
      exact decide_eq_true rfl
  read alike same := by simp only [ofTree, alike.read same]

/-- An honest writer that accepts or refuses a text by the path and the file there. -/
structure FileWriter.Separate (write : FileWriter FileTree) : Prop where
  honest : write.Honest
  verdict : ∀ {t t' : FileTree} {path : Path} (text : Text), FileTree.Alike t t' →
    t'.node? path.place = t.node? path.place → (write path text t').1 = (write path text t).1

theorem FileTree.writer_separate : FileTree.writer.Separate where
  honest := writer_honest
  verdict {t t' path} text alike _ := by
    simp only [writer, write, alike.target]
    cases t.target path <;> rfl

/-- What an honest writer does: nothing, or it puts the text where the path leads. -/
theorem FileWriter.Honest.cases {write : FileWriter FileTree} (honest : write.Honest) (path : Path) (text : Text)
    (tree : FileTree) : (∃ f, write path text tree = (.error f, tree)) ∨
      write path text tree = (.ok (), tree.set path.place (.file (.text text))) := by
  rcases honest path text tree with stored | failed
  · rw [stored, FileTree.writer, FileTree.write]
    cases target : tree.target path with
    | error f => exact .inl ⟨f, rfl⟩
    | ok place =>
      rw [FileTree.target_place target]
      exact .inr rfl
  · exact .inl failed

/-- What is reported of an outcome that is written, by how the write ends. -/
def Outcome.answer (o : Outcome) (path : Path) : Except IoFault Unit → Except FileFault FileResult
  | .error f => .error (.unwritable path f)
  | .ok () => .ok o.result

theorem Outcome.deliver_eq {σ : Type} {o : Outcome} {text : Text} (h : o.written = some text) (path : Path)
    (write : FileWriter σ) (files : σ) :
    o.deliver path write files = (o.answer path (write path text files).1, (write path text files).2) := by
  simp only [deliver, h]
  rcases write path text files with ⟨_ | _, files'⟩ <;> rfl

/-- The result of a file whose unit was linted, whether it could be written or not. -/
def FileResult.ofAnswer (p : Path) : Except FileFault FileResult → FileResult
  | .error f => internal p f.message
  | .ok result => result

theorem Component.WriteBack.drop_activate (w : WriteBack) : w.activate.drop = ⟨false, w.guards⟩ := rfl

namespace Workspace

/-! ## What belongs to one path -/

/-- A file is at the place of a path. -/
def Holds (w : Workspace) (p : Path) : Prop := ∃ c, w.tree.node? p.place = some (.file c)

/-- Two states that linting the file at a path cannot tell apart. -/
structure Agree (p : Path) (w w' : Workspace) : Prop where
  tree : w.tree.Alike w'.tree
  node : w'.tree.node? p.place = w.tree.node? p.place
  frame : w'.shelf.get? p = w.shelf.get? p

variable {p q : Path} {w w' w'' : Workspace} {α β : Type}

theorem Agree.refl (p : Path) (w : Workspace) : Agree p w w := ⟨.refl _, rfl, rfl⟩

theorem Agree.trans (first : Agree p w w') (next : Agree p w' w'') : Agree p w w'' :=
  ⟨first.tree.trans next.tree, next.node.trans first.node, next.frame.trans first.frame⟩

theorem Holds.alike (there : w.Holds p) (h : w.tree.Alike w'.tree) : w'.Holds p := by
  obtain ⟨c, found⟩ := there
  exact h.file found

/-- A step that looks at nothing but what belongs to a path, and changes nothing else, apart from the writer. -/
structure Confined (p : Path) (step : Workspace → α × Workspace) : Prop where
  alike : ∀ {w : Workspace}, w.Holds p → w.tree.Alike (step w).2.tree
  others : ∀ {w : Workspace} {q : Path}, w.Holds p → p.place ≠ q.place → Agree q w (step w).2
  same : ∀ {w w' : Workspace}, w.Holds p → Agree p w w' → (step w').1 = (step w).1 ∧ Agree p (step w).2 (step w').2

/-- A step goes on from another one, by its answer. -/
theorem Confined.andThen {first : Workspace → α × Workspace} {whole : Workspace → β × Workspace}
    (h : Confined p first)
    (next : ∀ w, w.Holds p → ∃ step, Confined p step ∧
      ∀ w', (first w').1 = (first w).1 → whole w' = step (first w').2) : Confined p whole where
  alike {w} there := by
    obtain ⟨step, confined, goes⟩ := next w there
    rw [goes w rfl]
    exact (h.alike there).trans (confined.alike (there.alike (h.alike there)))
  others {w q} there apart := by
    obtain ⟨step, confined, goes⟩ := next w there
    rw [goes w rfl]
    exact (h.others there apart).trans (confined.others (there.alike (h.alike there)) apart)
  same {w w'} there agree := by
    obtain ⟨step, confined, goes⟩ := next w there
    obtain ⟨answer, onward⟩ := h.same there agree
    rw [goes w rfl, goes w' answer]
    exact confined.same (there.alike (h.alike there)) onward

/-- A step that at most touches the writer. -/
theorem Confined.answer (a : α) (touch : Component.WriteBack → Component.WriteBack) :
    Confined p fun w => (a, { w with writer := touch w.writer }) where
  alike _ := .refl _
  others _ _ := ⟨.refl _, rfl, rfl⟩
  same _ agree := ⟨rfl, agree.tree, agree.node, agree.frame⟩

theorem Confined.map {step : Workspace → α × Workspace} (h : Confined p step) (f : α → β)
    (touch : Component.WriteBack → Component.WriteBack) :
    Confined p fun w => (f (step w).1, { (step w).2 with writer := touch (step w).2.writer }) :=
  h.andThen fun w _ => ⟨_, .answer (f (step w).1) touch, fun w' same => by rw [same]⟩

/-- A step that looks at the file at a path and shelves its frame. -/
theorem Confined.shelving (found : FileTree → α) (shelve : FileTree → Component.Shelf → Component.Shelf)
    (reads : ∀ {t t'}, FileTree.Alike t t' → t'.node? p.place = t.node? p.place →
      found t' = found t ∧ shelve t' = shelve t)
    (adds : ∀ t, Component.Shelf.Adds p (shelve t)) :
    Confined p fun w => (found w.tree, { w with shelf := shelve w.tree w.shelf }) where
  alike _ := .refl _
  others {w q} _ apart := by
    refine ⟨.refl _, rfl, (adds w.tree).other (fun same => apart ?_) w.shelf⟩
    exact Path.place_eq_of_normalize same.symm
  same {w w'} _ agree := by
    obtain ⟨result, shelf⟩ := reads agree.tree agree.node
    refine ⟨result, agree.tree, agree.node, ?_⟩
    dsimp only
    rw [shelf]
    exact (adds w.tree).same agree.frame

/-- A step that writes to the file at a path, and answers by what comes of it. -/
theorem Confined.writing {write : FileWriter FileTree} (separate : write.Separate) {path : Path}
    (place : path.place = p.place) (out : Option Component.Frame → Text) (reply : Except IoFault Unit → α)
    (touch : Component.WriteBack → Component.WriteBack) :
    Confined p fun w => (reply (write path (out (w.shelf.get? p)) w.tree).1,
      { w with tree := (write path (out (w.shelf.get? p)) w.tree).2, writer := touch w.writer }) where
  alike {w} := by
    rintro ⟨c, found⟩
    rw [← place] at found
    rcases separate.honest.cases path (out (w.shelf.get? p)) w.tree with ⟨f, failed⟩ | stored
    · rw [failed]
      exact .refl _
    · rw [stored]
      exact FileTree.alike_set found _
  others {w q} := by
    rintro ⟨c, found⟩ apart
    rw [← place] at found apart
    rcases separate.honest.cases path (out (w.shelf.get? p)) w.tree with ⟨f, failed⟩ | stored
    · rw [failed]
      exact ⟨.refl _, rfl, rfl⟩
    · rw [stored]
      exact ⟨FileTree.alike_set found _, (FileTree.node?_set found _ _).trans (if_neg apart.symm), rfl⟩
  same {w w'} := by
    rintro ⟨c, found⟩ agree
    obtain ⟨c', found'⟩ := agree.tree.file found
    rw [← place] at found found'
    have verdict := separate.verdict (out (w.shelf.get? p)) agree.tree (place ▸ agree.node)
    rw [agree.frame, verdict]
    refine ⟨rfl, ?_⟩
    -- the verdict is one for both trees, so either both are written to or neither is
    rcases separate.honest.cases path (out (w.shelf.get? p)) w.tree with ⟨f, failed⟩ | stored <;>
      rcases separate.honest.cases path (out (w.shelf.get? p)) w'.tree with ⟨f', failed'⟩ | stored'
    · rw [failed, failed']
      exact ⟨agree.tree, agree.node, agree.frame⟩
    · rw [failed, stored'] at verdict
      contradiction
    · rw [stored, failed'] at verdict
      contradiction
    · rw [stored, stored']
      refine ⟨?_, ?_, agree.frame⟩
      · intro q
        dsimp only
        rw [FileTree.node?_set found, FileTree.node?_set found']
        split_ifs
        · exact .inl rfl
        · exact agree.tree q
      · dsimp only
        rw [FileTree.node?_set found, FileTree.node?_set found', place, if_pos rfl, if_pos rfl]

/-! ## The branches of linting a file -/

section Branches

variable {write : FileWriter FileTree} {host : FileTree → SourceHost} (l : Linter) (program : Program)

theorem lintUnitAt_of_error {f : HostFault} (h : (unitToLint (some program) (host w.tree) w.shelf p).1 = .error f) :
    w.lintUnitAt write l program p host = (some (.internal p (FileFault.unreadable f).message),
      { w with shelf := (unitToLint (some program) (host w.tree) w.shelf p).2 }) := by
  rw [lintUnitAt]
  rcases taken : unitToLint (some program) (host w.tree) w.shelf p with ⟨found, shelf⟩
  rw [taken] at h
  obtain rfl : found = .error f := h
  rfl

theorem lintUnitAt_of_none (h : (unitToLint (some program) (host w.tree) w.shelf p).1 = .ok none) :
    w.lintUnitAt write l program p host =
      (none, { w with shelf := (unitToLint (some program) (host w.tree) w.shelf p).2 }) := by
  rw [lintUnitAt]
  rcases taken : unitToLint (some program) (host w.tree) w.shelf p with ⟨found, shelf⟩
  rw [taken] at h
  obtain rfl : found = .ok none := h
  rfl

theorem lintUnitAt_of_unit {u : SourceUnit}
    (h : (unitToLint (some program) (host w.tree) w.shelf p).1 = .ok (some u)) :
    w.lintUnitAt write l program p host =
      (some (.ofAnswer p (({ w with shelf := (unitToLint (some program) (host w.tree) w.shelf p).2 } :
          Workspace).lintUnit write l program u).1),
        (({ w with shelf := (unitToLint (some program) (host w.tree) w.shelf p).2 } : Workspace).lintUnit
          write l program u).2) := by
  rw [lintUnitAt]
  rcases taken : unitToLint (some program) (host w.tree) w.shelf p with ⟨found, shelf⟩
  rw [taken] at h
  obtain rfl : found = .ok (some u) := h
  dsimp only
  rcases lintUnit write { w with shelf := shelf } l program u with ⟨_ | _, _⟩ <;> rfl

theorem lintFile_of_error {message : String} (h : (w.admits p).1 = .error message) :
    w.lintFile write l program p host = (some (.internal p message), (w.admits p).2) := by
  rw [lintFile]
  rcases entered : w.admits p with ⟨admitted, w'⟩
  rw [entered] at h
  obtain rfl : admitted = .error message := h
  rfl

theorem lintFile_of_none (h : (w.admits p).1 = .ok false) :
    w.lintFile write l program p host = (none, (w.admits p).2) := by
  rw [lintFile]
  rcases entered : w.admits p with ⟨admitted, w'⟩
  rw [entered] at h
  obtain rfl : admitted = .ok false := h
  rfl

theorem lintFile_of_admitted (h : (w.admits p).1 = .ok true) :
    w.lintFile write l program p host =
      ((({ (w.admits p).2 with writer := (w.admits p).2.writer.activate } : Workspace).lintUnitAt
          write l program p host).1,
        { (({ (w.admits p).2 with writer := (w.admits p).2.writer.activate } : Workspace).lintUnitAt
          write l program p host).2 with
          writer := (({ (w.admits p).2 with writer := (w.admits p).2.writer.activate } : Workspace).lintUnitAt
            write l program p host).2.writer.drop }) := by
  rw [lintFile]
  rcases entered : w.admits p with ⟨admitted, w'⟩
  rw [entered] at h
  obtain rfl : admitted = .ok true := h
  rfl

end Branches

/-! ## The steps of linting a file -/

/-- Whether a component is linted, by what is read at its path. -/
def admission (p : Path) : Except IoFault Text → Except String Bool
  | .error f => .error (HostFault.unreadable p f).message
  | .ok document =>
    match Component.script? document with
    | .error d => .error d.message
    | .ok script => .ok script.isSome

/-- The shelf after a component was looked at. -/
def shelved (p : Path) (read : Except IoFault Text) (shelf : Component.Shelf) : Component.Shelf :=
  match read with
  | .error _ => shelf
  | .ok document => (Component.extract shelf p document).2

theorem admits_component (component : p.isComponent = true) (w : Workspace) :
    w.admits p = (admission p (w.tree.read p), { w with shelf := shelved p (w.tree.read p) w.shelf }) := by
  simp only [admits, component, if_true, script]
  cases w.tree.read p with
  | error f => rfl
  | ok document =>
    obtain ⟨taken, -⟩ := Component.Shelf.extract_adds p document
    dsimp only [admission, shelved]
    rw [← taken w.shelf]
    rcases Component.extract w.shelf p document with ⟨_ | _, shelf⟩ <;> rfl

theorem shelved_adds (p : Path) (read : Except IoFault Text) : Component.Shelf.Adds p (shelved p read) := by
  cases read with
  | error f => exact .nothing p
  | ok document => exact (Component.Shelf.extract_adds p document).2

theorem admits_confined (p : Path) : Confined p fun w => w.admits p := by
  by_cases component : p.isComponent = true
  · simp only [admits_component component]
    refine .shelving (fun t => admission p (t.read p)) (fun t => shelved p (t.read p)) (fun alike node => ?_)
      fun t => shelved_adds p _
    simp only [alike.read node, and_self]
  · simp only [admits, component]
    exact .answer (Except.ok true) id

section Steps

variable {write : FileWriter FileTree} {host : FileTree → SourceHost} (l : Linter) (program : Program)

theorem unitToLint_confined (serves : SourceHost.Serves host) (p : Path) :
    Confined p fun w => ((unitToLint (some program) (host w.tree) w.shelf p).1,
      { w with shelf := (unitToLint (some program) (host w.tree) w.shelf p).2 }) := by
  simp only [unitToLint, Option.bind_some]
  cases program.unit? p with
  | some u => exact .answer (Except.ok (some u)) id
  | none =>
    dsimp only
    have path (t : FileTree) (u : SourceUnit) (read : (host t).read p = .ok (some u)) :
        u.path.normalize = p.normalize := Path.normalize_eq_of_same (serves.path read)
    have shape : (fun w : Workspace => (((host w.tree).readUnit w.shelf p).1,
        ({ w with shelf := ((host w.tree).readUnit w.shelf p).2 } : Workspace))) =
        fun w => (((host w.tree).readUnit {} p).1, { w with shelf := ((host w.tree).readUnit w.shelf p).2 }) := by
      funext w
      rw [(SourceHost.readUnit_adds (path w.tree)).1 w.shelf {}]
    rw [shape]
    refine .shelving (fun t => ((host t).readUnit {} p).1) (fun t shelf => ((host t).readUnit shelf p).2)
      (fun alike node => ?_) fun t => (SourceHost.readUnit_adds (path t)).2
    simp only [SourceHost.readUnit, serves.read alike node, and_self]

/-- The unit that is linted at a path is one of that path. -/
theorem unitToLint_path (serves : SourceHost.Serves host) {shelf : Component.Shelf} {t : FileTree} {u : SourceUnit}
    (found : (unitToLint (some program) (host t) shelf p).1 = .ok (some u)) : u.path.same p.normalize = true := by
  rw [unitToLint, Option.bind_some] at found
  cases known : program.unit? p with
  | some v =>
    rw [known] at found
    obtain rfl : v = u := Option.some.inj (Except.ok.inj found)
    obtain ⟨linked, at_, rfl⟩ := Option.map_eq_some_iff.1 known
    simpa using List.find?_some at_
  | none =>
    rw [known] at found
    obtain ⟨v, read, same⟩ := SourceHost.readUnit_path found
    rw [same]
    exact serves.path read

/-- Linting a unit under the writer touches the file that the unit was taken from. -/
theorem lintUnit_confined (separate : write.Separate) {u : SourceUnit} (path : u.path.same p.normalize = true) :
    Confined p fun w => ({ w with writer := w.writer.activate } : Workspace).lintUnit write l program u := by
  have key := Path.normalize_eq_of_same path
  cases written : (l.lintUnit (some program) u).written with
  | none =>
    simp only [lintUnit, Outcome.deliver, written]
    exact .answer _ (·.activate)
  | some text =>
    have goes (w : Workspace) : w.writer.activate.through w.shelf write u.path text w.tree =
        write u.path (((w.shelf.get? p).map (·.wrap text)).getD text) w.tree := by
      simp only [Component.WriteBack.through, Component.WriteBack.outgoing, Component.WriteBack.activate, if_true,
        Component.Shelf.wrap?, Component.Shelf.get?, key]
    simp only [lintUnit, Outcome.deliver_eq written, goes]
    exact .writing separate (Path.place_eq_of_normalize key) (fun frame => (frame.map (·.wrap text)).getD text)
      ((l.lintUnit (some program) u).answer u.path) (·.activate)

theorem lintUnitAt_confined (separate : write.Separate) (serves : SourceHost.Serves host) (p : Path) :
    Confined p fun w => ({ w with writer := w.writer.activate } : Workspace).lintUnitAt write l program p host := by
  refine (unitToLint_confined program serves p).andThen fun w _ => ?_
  cases found : (unitToLint (some program) (host w.tree) w.shelf p).1 with
  | error f => exact ⟨_, .answer _ (·.activate), fun w' same => lintUnitAt_of_error l program same⟩
  | ok u =>
    cases u with
    | none => exact ⟨_, .answer _ (·.activate), fun w' same => lintUnitAt_of_none l program same⟩
    | some u =>
      have linted := lintUnit_confined l program separate (unitToLint_path program serves found)
      exact ⟨_, linted.map (fun answer => some (.ofAnswer p answer)) id, fun w' same =>
        lintUnitAt_of_unit (w := { w' with writer := w'.writer.activate }) l program same⟩

/-- Linting a file looks at that file and its frame, and changes nothing else. -/
theorem lintFile_confined (separate : write.Separate) (serves : SourceHost.Serves host) (p : Path) :
    Confined p fun w => w.lintFile write l program p host := by
  refine (admits_confined p).andThen fun w _ => ?_
  cases admitted : (w.admits p).1 with
  | error message => exact ⟨_, .answer _ id, fun w' same => lintFile_of_error l program same⟩
  | ok admits =>
    cases admits with
    | false => exact ⟨_, .answer _ id, fun w' same => lintFile_of_none l program same⟩
    | true =>
      exact ⟨_, (lintUnitAt_confined l program separate serves p).map id (·.drop), fun w' same =>
        lintFile_of_admitted l program same⟩

end Steps

end Workspace

end ComponentLint
