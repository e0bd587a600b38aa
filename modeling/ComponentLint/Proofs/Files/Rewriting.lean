import ComponentLint.Proofs.Files.Places

/-! Writing into files that are there. A write changes what stands at the place of its path and nothing else,
so a tree whose files are rewritten is walked as before, and what is not rewritten is read as before. -/
namespace ComponentLint.FileTree

variable {t t' : FileTree} {p : Path}

/-! ## One write -/

theorem lookup_cons_eq (k q : Place) (m : FileNode) (nodes : List (Place × FileNode)) :
    ((k, m) :: nodes).lookup q = if q = k then some m else nodes.lookup q := by
  by_cases same : q = k
  · simp [same]
  · have other : (q == k) = false := beq_false_of_ne same
    simp [List.lookup_cons, other, same]

theorem lookup_put (place q : Place) (n : FileNode) (nodes : List (Place × FileNode)) :
    (put place n nodes).lookup q = if q = place then some n else nodes.lookup q := by
  induction nodes with
  | nil => rw [put, lookup_cons_eq]
  | cons entry nodes ih =>
    obtain ⟨k, m⟩ := entry
    by_cases found : k = place
    · rw [put, if_pos found, lookup_cons_eq, lookup_cons_eq, found]
      by_cases same : q = place <;> simp [same]
    · rw [put, if_neg found, lookup_cons_eq, lookup_cons_eq, ih]
      by_cases same : q = k
      · simp [same, found]
      · simp [same]

theorem keys_put {place : Place} {m n : FileNode} {nodes : List (Place × FileNode)}
    (h : nodes.lookup place = some m) : (put place n nodes).map (·.1) = nodes.map (·.1) := by
  induction nodes with
  | nil => simp at h
  | cons entry nodes ih =>
    obtain ⟨k, l⟩ := entry
    by_cases found : k = place
    · simp [put, found]
    · rw [lookup_cons_eq, if_neg fun same => found same.symm] at h
      simp [put, found, ih h]

/-- Another text in a file changes what stands there and nothing else. -/
theorem node?_set {place : Place} {c : Content} (h : t.node? place = some (.file c)) (n : FileNode) (q : Place) :
    (t.set place n).node? q = if q = place then some n else t.node? q := by
  have there : t.nodes.lookup place = some (.file c) := by
    rw [node?] at h
    cases found : t.nodes.lookup place with
    | some m => simpa [found] using h
    | none =>
      rw [found] at h
      dsimp only at h
      split_ifs at h
      simp at h
  have keys : (t.set place n).nodes.any (fun e => isStrictlyBelow q e.1) =
      t.nodes.any (fun e => isStrictlyBelow q e.1) := by
    have same := congrArg (List.any · (isStrictlyBelow q)) (keys_put (n := n) there)
    simpa [set, List.any_map, Function.comp_def] using same
  rw [node?, node?, keys, set, lookup_put]
  by_cases same : q = place <;> simp [same]

/-! ## Trees that differ in texts -/

/-- The same tree but for what stands in files. -/
def Alike (t t' : FileTree) : Prop :=
  ∀ place, t'.node? place = t.node? place ∨
    ∃ c c', t.node? place = some (.file c) ∧ t'.node? place = some (.file c')

theorem Alike.walk (h : Alike t t') (place : Place) (segments : List Text) :
    t'.walk place segments = t.walk place segments := by
  induction segments generalizing place with
  | nil => rfl
  | cons s rest ih =>
    rw [FileTree.walk, FileTree.walk]
    rcases h place with same | ⟨c, c', before, after⟩
    · rw [same]
      simp only [ih]
    · rw [before, after]

theorem Alike.target (h : Alike t t') (p : Path) : t'.target p = t.target p := by
  rw [FileTree.target, FileTree.target, h.walk]
  cases t.walk [] (p.chars.splitOn '/') with
  | error f => rfl
  | ok place =>
    dsimp only
    rcases h place with same | ⟨c, c', before, after⟩
    · rw [same]
      rcases h place.dropLast with above | ⟨c, c', before, after⟩
      · rw [above]
      · rw [before, after]
    · rw [before, after]

theorem Alike.refl (t : FileTree) : Alike t t := fun _ => .inl rfl

theorem Alike.trans {u : FileTree} (first : Alike t t') (next : Alike t' u) : Alike t u := by
  intro place
  rcases next place with same | ⟨c, c', before, after⟩
  · rw [same]
    exact first place
  · rcases first place with same | ⟨d, d', before', -⟩
    · exact .inr ⟨c, c', same ▸ before, after⟩
    · exact .inr ⟨d, c', before', after⟩

theorem Alike.file (h : Alike t t') {place : Place} {c : Content} (there : t.node? place = some (.file c)) :
    ∃ c', t'.node? place = some (.file c') := by
  rcases h place with same | ⟨d, d', -, after⟩
  · exact ⟨c, same.trans there⟩
  · exact ⟨d', after⟩

theorem Alike.lookup (h : Alike t t') (same : t'.node? p.place = t.node? p.place) : t'.lookup p = t.lookup p := by
  rw [FileTree.lookup, FileTree.lookup, h.walk]
  cases walked : t.walk [] (p.chars.splitOn '/') with
  | error f => rfl
  | ok place =>
    rw [walk_place walked]
    dsimp only
    rw [same]

theorem Alike.read (h : Alike t t') (same : t'.node? p.place = t.node? p.place) : t'.read p = t.read p := by
  rw [FileTree.read, FileTree.read, h.lookup same]

/-- Another content in a file leaves the tree alike. -/
theorem alike_set {place : Place} {c : Content} (h : t.node? place = some (.file c)) (new : Content) :
    Alike t (t.set place (.file new)) := by
  intro q
  rw [node?_set h]
  by_cases same : q = place
  · subst q
    exact .inr ⟨c, new, h, if_pos rfl⟩
  · exact .inl (if_neg same)

/-- The tree with other texts in files, each of which one of the paths leads to. -/
def Rewritten (at_ : Path → Prop) (t t' : FileTree) : Prop :=
  ∀ place, t'.node? place = t.node? place ∨ (∃ p, at_ p ∧ t.target p = .ok place) ∧
    ∃ c c', t.node? place = some (.file c) ∧ t'.node? place = some (.file c')

theorem Rewritten.refl (at_ : Path → Prop) (t : FileTree) : Rewritten at_ t t := fun _ => .inl rfl

theorem Rewritten.alike {at_ : Path → Prop} (h : Rewritten at_ t t') : Alike t t' := fun place =>
  (h place).imp_right And.right

theorem Rewritten.mono {few more : Path → Prop} (h : Rewritten few t t') (among : ∀ p, few p → more p) :
    Rewritten more t t' := by
  intro place
  rcases h place with same | ⟨⟨p, here, leads⟩, texts⟩
  · exact .inl same
  · exact .inr ⟨⟨p, among p here, leads⟩, texts⟩

theorem Rewritten.trans {at_ : Path → Prop} {u : FileTree} (first : Rewritten at_ t t') (next : Rewritten at_ t' u) :
    Rewritten at_ t u := by
  intro place
  rcases next place with same | ⟨⟨p, here, leads⟩, c, c', before, after⟩
  · rw [same]
    exact first place
  · rw [first.alike.target] at leads
    refine .inr ⟨⟨p, here, leads⟩, ?_⟩
    rcases first place with same | ⟨-, d, d', before', -⟩
    · exact ⟨c, c', same ▸ before, after⟩
    · exact ⟨d, c', before', after⟩

theorem target_place {q : Place} (h : t.target p = .ok q) : q = p.place := by
  rw [target] at h
  cases walked : t.walk [] (p.chars.splitOn '/') with
  | error f => simp [walked] at h
  | ok place =>
    rw [← walk_place walked]
    rw [walked] at h
    dsimp only at h
    split at h
    · simp at h
    · exact (Except.ok.inj h).symm
    · split at h <;> simp at h
      exact h.symm

theorem Rewritten.read {at_ : Path → Prop} (h : Rewritten at_ t t') (apart : ∀ q, at_ q → q.place ≠ p.place) :
    t'.read p = t.read p := by
  refine h.alike.read ?_
  rcases h p.place with same | ⟨⟨q, here, leads⟩, -⟩
  · exact same
  · exact absurd (target_place leads).symm (apart q here)

/-- Writing to a file that can be read succeeds, and then it reads as it was written. -/
theorem write_of_read {old : Text} (h : t.read p = .ok old) (text : Text) :
    ∃ t', t.write p text = .ok t' ∧ t'.read p = .ok text ∧ t.target p = .ok p.place ∧ Rewritten (· = p) t t' := by
  obtain ⟨q, walked, found⟩ := read_eq_ok_iff.1 h
  obtain rfl := walk_place walked
  have target_ : t.target p = .ok p.place := by simp [target, walked, found]
  have nodes := node?_set found (.file (.text text))
  have rewritten : Rewritten (· = p) t (t.set p.place (.file (.text text))) := by
    intro place
    rw [nodes]
    by_cases same : place = p.place
    · subst place
      exact .inr ⟨⟨p, rfl, target_⟩, _, .text text, found, if_pos rfl⟩
    · exact .inl (if_neg same)
  refine ⟨_, by rw [write, target_], read_eq_ok_iff.2 ⟨p.place, ?_, ?_⟩, target_, rewritten⟩
  · rw [rewritten.alike.walk, walked]
  · rw [nodes, if_pos rfl]

end ComponentLint.FileTree
