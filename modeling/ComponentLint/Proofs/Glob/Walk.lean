import ComponentLint.Glob.Walk
import ComponentLint.Proofs.Fallible
import ComponentLint.Proofs.Path.Absolute

/-! What holds at the start of a walk, and is kept by each name that a walk puts behind a path, holds of all that the
walk finds. -/
namespace ComponentLint

namespace Glob

namespace Walk

/-- The three ways in which a walk puts a name behind a path keep a property of paths. -/
structure Keeps (w : Walk) (patterns : List Pattern) (motive : Path → Prop) : Prop where
  plain : ∀ pattern ∈ patterns, ∀ name, pattern.plain? = some name → ∀ p, motive p → motive (p.join ⟨name⟩)
  special : ∀ pattern ∈ patterns, ∀ p, ∀ name ∈ w.specials pattern p, motive p → motive (p.join ⟨name⟩)
  entry : ∀ p, ∀ name ∈ w.entries p, motive p → motive (p.join ⟨name⟩)

variable {w : Walk} {motive : Path → Prop} {patterns : List Pattern} {p q base : Path}

theorem Keeps.sublist {others : List Pattern} (keeps : w.Keeps patterns motive) (among : others.Sublist patterns) :
    w.Keeps others motive :=
  ⟨fun pattern member => keeps.plain pattern (among.subset member),
    fun pattern member => keeps.special pattern (among.subset member), keeps.entry⟩

theorem yields_forall (h : motive p) (found : q ∈ w.yields p) : motive q := by
  rw [yields] at found
  split_ifs at found
  · rw [List.mem_singleton.1 found]
    exact h
  · simp at found

theorem enter_forall {follow : Path → List Path} (stays : ∀ p, motive p → ∀ q ∈ follow p, motive q)
    {pattern : Pattern} {last : Bool} {name : Text} (h : motive p) (found : q ∈ w.enter follow pattern last p name) :
    motive q := by
  rw [enter] at found
  split_ifs at found with covers final
  · exact yields_forall h found
  · exact stays p h q found
  · simp at found

theorem descend_forall (entry : ∀ p, ∀ name ∈ w.entries p, motive p → motive (p.join ⟨name⟩))
    {here : Path → Text → List Path} (stays : ∀ p name, motive p → ∀ q ∈ here p name, motive q) {levels : Nat}
    (h : motive base) (found : q ∈ w.descend here base levels) : motive q := by
  induction levels generalizing base with
  | zero => simp [descend] at found
  | succ levels ih =>
    rw [descend] at found
    obtain ⟨name, member, found⟩ := List.mem_flatMap.1 found
    have below : motive (base.join ⟨name⟩) := entry base name member h
    rcases List.mem_append.1 found with now | later
    · exact stays _ name below q now
    · exact ih below later

theorem expand_forall (keeps : w.Keeps patterns motive) (h : motive base) (found : q ∈ w.expand patterns base) :
    motive q := by
  induction size : patterns.length using Nat.strongRecOn generalizing patterns base q with
  | ind n ih =>
    subst size
    cases patterns with
    | nil => simp [expand] at found
    | cons pattern rest =>
      have stays (others : List Pattern) (fewer : others.Sublist rest) (p : Path) (holds : motive p) :
          ∀ q ∈ w.expand others p, motive q := fun q found =>
        ih others.length (Nat.lt_succ_of_le fewer.length_le) (keeps.sublist (fewer.cons pattern)) holds found rfl
      have onward (p : Path) (holds : motive p) :
          ∀ q ∈ (if rest = [] then w.yields p else w.expand rest p), motive q := by
        intro q found
        split_ifs at found
        · exact yields_forall holds found
        · exact stays rest (.refl rest) p holds q found
      rw [expand.eq_def] at found
      dsimp only at found
      cases plain : pattern.plain? with
      | some name =>
        have named := keeps.plain pattern (List.mem_cons_self ..) name plain base h
        simp only [plain] at found
        split at found
        · split at found
          · exact onward _ named q found
          · simp at found
        · split at found
          · exact onward _ named q found
          · simp at found
      | none =>
        simp only [plain] at found
        by_cases recursive : pattern.isRecursive = true
        · rw [if_pos recursive] at found
          cases rest with
          | nil =>
            refine descend_forall keeps.entry (fun p name holds q found => ?_) h found
            split_ifs at found
            · rw [List.mem_singleton.1 found]
              exact holds
            · simp at found
          | cons next others =>
            dsimp only at found
            split_ifs at found with again
            · exact stays _ (.refl _) base h q found
            · refine descend_forall keeps.entry (fun p name holds q found => ?_) h found
              exact enter_forall (stays others (List.sublist_cons_self next others)) holds found
        · rw [if_neg recursive] at found
          rcases List.mem_append.1 found with special | entry
          · obtain ⟨name, member, found⟩ := List.mem_flatMap.1 special
            exact onward _ (keeps.special pattern (List.mem_cons_self ..) base name member h) q found
          · obtain ⟨name, member, found⟩ := List.mem_flatMap.1 entry
            exact enter_forall (stays rest (.refl rest)) (keeps.entry base name member h) found

end Walk

/-- What holds at the root and is kept by what a pattern puts behind a path holds of all that the pattern finds. -/
theorem paths_forall {motive : Path → Prop} {tree : FileTree} {o : Options} {pattern : Text} {ps : List Path}
    (h : paths tree o pattern = .ok ps) (root : motive ⟨['/']⟩)
    (keeps : ∀ patterns, (∀ p ∈ patterns, ∃ s ∈ componentTexts pattern, Pattern.ofText s = .ok p) →
      (⟨tree, o, pattern.getLast? = some '/'⟩ : Walk).Keeps patterns motive) : ∀ p ∈ ps, motive p := by
  obtain ⟨whole, -, h⟩ := bind_eq_ok_iff.1 h
  obtain ⟨patterns, read, h⟩ := bind_eq_ok_iff.1 h
  obtain rfl := Except.ok.inj h
  exact fun p found => Walk.expand_forall (keeps patterns fun _ member => mem_of_mapM read member) root found

/-- A walk finds absolute paths. -/
theorem paths_absolute {tree : FileTree} {o : Options} {pattern : Text} {ps : List Path}
    (h : paths tree o pattern = .ok ps) : ∀ p ∈ ps, p.isAbsolute = true := by
  apply paths_forall (motive := fun p => p.isAbsolute = true) h rfl
  exact fun _ _ => ⟨fun _ _ _ _ _ holds => Path.join_absolute holds _,
    fun _ _ _ _ _ holds => Path.join_absolute holds _, fun _ _ _ holds => Path.join_absolute holds _⟩

end Glob

end ComponentLint
