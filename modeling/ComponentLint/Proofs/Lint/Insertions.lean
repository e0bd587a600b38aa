import ComponentLint.Proofs.Lint.Substitution

/-! Fixes of one edit each, of which some only put text in. Edits at one place are made in the order in which they were
taken, each in front of what the one before it put there. So texts put in at one place come out in reverse, and an edit
that replaces something where another puts something in takes away what was put in. Where no two of the edits start at
one place, the outcome is the text as it was with each of them in its place. -/
namespace ComponentLint

/-- The edit puts text in and takes none away. -/
def Edit.Inserts (e : Edit) : Prop := e.span.start = e.span.stop

instance (e : Edit) : Decidable e.Inserts := inferInstanceAs (Decidable (_ = _))

namespace Fixes

/-- Each diagnostic carries a fix of one edit, which fits the text. -/
def Single (text : Text) (ds : List Diagnostic) : Prop :=
  ∀ d ∈ ds, ∃ f ∈ d.fix, f.edits.length = 1 ∧ f.Fits text

instance (text : Text) (ds : List Diagnostic) : Decidable (Single text ds) :=
  inferInstanceAs (Decidable (∀ d ∈ ds, ∃ f ∈ d.fix, _ ∧ _))

/-- The edits of the fixes that are taken, in their order. -/
def accepted (text : Text) (ds : List Diagnostic) : List Edit :=
  (greedy text (candidates ds)).flatMap (·.edits)

variable {text : Text} {ds : List Diagnostic}

theorem accepted_fits {e : Edit} (member : e ∈ accepted text ds) : e.fits text = true := by
  obtain ⟨f, taken, inF⟩ := List.mem_flatMap.1 member
  exact (mem_greedy taken).2 e inF

/-- Edits of different fixes that are taken stand one behind the other, and each fix has only one. -/
theorem accepted_pairwise (single : Single text ds) :
    (accepted text ds).Pairwise fun a b => a.span.stop ≤ b.span.start := by
  refine List.pairwise_flatMap.2 ⟨fun f member => ?_, (greedy_apart text _).imp fun {f g} before a inF b inG => ?_⟩
  · obtain ⟨⟨d, inD, carries⟩, -⟩ := mem_carried.1 ((candidates_perm ds).mem_iff.1 (mem_greedy member).1)
    obtain ⟨f', carries', one, -⟩ := single d inD
    obtain rfl : f' = f := Option.mem_unique carries' carries
    obtain ⟨e, only⟩ := List.length_eq_one_iff.1 one
    rw [only]
    exact List.pairwise_singleton ..
  · have ends := (Fix.range_covers inF).2
    have starts := (Fix.range_covers inG).1
    omega

/-- Texts put in at one place are the only edits there that leave the others alone. -/
theorem schedule_apart_of_inserts (single : Single text ds)
    (alone : ∀ a ∈ accepted text ds, ∀ b ∈ accepted text ds,
      a.span.start = b.span.start → a.Inserts → b.Inserts) :
    (schedule (greedy text (candidates ds))).Pairwise fun a b => b.span.stop ≤ a.span.start := by
  have perm : (schedule (greedy text (candidates ds))).Perm (accepted text ds) := schedule_perm _
  have apart : (schedule (greedy text (candidates ds))).Pairwise fun a b =>
      a.span.stop ≤ b.span.start ∨ b.span.stop ≤ a.span.start :=
    (perm.pairwise_iff Or.symm).2 ((accepted_pairwise single).imp Or.inl)
  apply ((schedule_pairwise _).and apart).imp_of_mem
  rintro a b inA inB ⟨later, before | behind⟩
  · have ordered := Edit.span_le_of_fits (accepted_fits (perm.mem_iff.1 inA))
    have same : a.span.start = b.span.start := by omega
    have puts : a.Inserts := by
      rw [Edit.Inserts]
      omega
    have also_ := alone a (perm.mem_iff.1 inA) b (perm.mem_iff.1 inB) same puts
    rw [Edit.Inserts] at also_
    omega
  · exact behind

/-- Edits that start at places of their own are made from the last to the first. -/
theorem schedule_reverse (single : Single text ds) (distinct : ((accepted text ds).map (·.span.start)).Nodup) :
    (schedule (greedy text (candidates ds))).reverse = accepted text ds := by
  have perm : (schedule (greedy text (candidates ds))).reverse.Perm (accepted text ds) :=
    (List.reverse_perm _).trans (schedule_perm _)
  have sorted : (schedule (greedy text (candidates ds))).reverse.Pairwise fun a b => a.span.start ≤ b.span.start :=
    List.pairwise_reverse.2 (schedule_pairwise _)
  have ordered : (accepted text ds).Pairwise fun a b => a.span.start ≤ b.span.start := by
    apply (accepted_pairwise single).imp_of_mem
    intro a b inA _ before
    have start := Edit.span_le_of_fits (accepted_fits inA)
    omega
  apply List.Perm.eq_of_pairwise _ sorted ordered perm
  intro a b inA inB ab ba
  exact List.inj_on_of_nodup_map distinct (perm.mem_iff.1 inA) inB (Nat.le_antisymm ab ba)

/-- Fixes of one edit that fits the text. If no edit that is taken replaces something where another one puts text in,
each finds a piece of the text that it is made in, the bytes that are gone are those of the edits, and each new text is
there whole; they stand in the order of their places, those at one place in reverse. If no two edits that are taken
start at one place, they stand in the order of the fixes. -/
theorem apply_inserts (single : Single text ds) :
    let out := (apply text ds).1
    let order := (schedule (greedy text (candidates ds))).reverse
    ((∀ a ∈ accepted text ds, ∀ b ∈ accepted text ds, a.span.start = b.span.start → a.Inserts → b.Inserts) →
      made? text (schedule (greedy text (candidates ds))) = some out ∧ Edit.Replaced order text out ∧
      (∀ e ∈ accepted text ds, e.new <:+: out) ∧
      (order.Pairwise fun a b => a.span.start ≤ b.span.start) ∧
      ∀ place, order.filter (·.span.start = place) = ((accepted text ds).filter (·.span.start = place)).reverse) ∧
    (((accepted text ds).map (·.span.start)).Nodup →
      made? text (schedule (greedy text (candidates ds))) = some out ∧ Edit.Replaced (accepted text ds) text out) := by
  intro out order
  have perm : order.Perm (accepted text ds) := (List.reverse_perm _).trans (schedule_perm _)
  have fits : ∀ e ∈ schedule (greedy text (candidates ds)), e.fits text = true :=
    schedule_fits fun f member => (mem_greedy member).2
  have whole : out = run text (schedule (greedy text (candidates ds))) := by
    rw [← select_eq_greedy]
    rfl
  have replaced (apart : (schedule (greedy text (candidates ds))).Pairwise fun a b => b.span.stop ≤ a.span.start) :
      made? text (schedule (greedy text (candidates ds))) = some out ∧ Edit.Replaced order text out := by
    rw [whole]
    exact made?_of_apart fits apart
  refine ⟨fun alone => ?_, fun distinct => ?_⟩
  · obtain ⟨made, cut⟩ := replaced (schedule_apart_of_inserts single alone)
    refine ⟨made, cut, fun e member => cut.new_infix (perm.mem_iff.2 member), ?_, fun place => ?_⟩
    · exact List.pairwise_reverse.2 (schedule_pairwise _)
    · rw [List.filter_reverse]
      congr 1
      apply Sorting.sort_filter
      intro a b atA atB
      rw [decide_eq_true_eq] at atA atB ⊢
      omega
  · have alone : ∀ a ∈ accepted text ds, ∀ b ∈ accepted text ds,
        a.span.start = b.span.start → a.Inserts → b.Inserts := by
      intro a inA b inB same puts
      rwa [List.inj_on_of_nodup_map distinct inA inB same] at puts
    obtain ⟨made, cut⟩ := replaced (schedule_apart_of_inserts single alone)
    refine ⟨made, ?_⟩
    rwa [← schedule_reverse single distinct]

theorem apply_inserts_imports :
    let carry (start stop : Nat) (new : String) : Diagnostic :=
      ⟨"rule", .error, "", ⟨0, 0⟩, none, some ⟨"", [⟨⟨start, stop⟩, new.toList⟩]⟩⟩
    let text : Text := "é = 1".toList
    let ds := [carry 5 6 "2", carry 0 0 "const ", carry 0 0 "export ", carry 2 2 ": number"]
    let apart := [carry 5 6 "2", carry 0 0 "let "]
    Single text ds ∧ apply text ds = ("export const é: number = 2".toList, 4) ∧
      made? text (schedule (greedy text (candidates ds))) = some (apply text ds).1 ∧
      (∀ e ∈ accepted text ds, e.new <:+: (apply text ds).1) ∧
      Single text apart ∧ Edit.Replaced (accepted text apart) text (apply text apart).1 := by
  intro carry text ds apart
  have single : Single text ds := by decide +kernel
  have single_apart : Single text apart := by decide +kernel
  obtain ⟨made, -, kept, -⟩ := (apply_inserts single).1 (by decide +kernel)
  obtain ⟨-, cut⟩ := (apply_inserts single_apart).2 (by decide +kernel)
  exact ⟨single, by decide +kernel, made, kept, single_apart, cut⟩

/-- An edit that replaces something where another one puts text in takes away what was put in, and may not even find a
piece to replace there. -/
theorem insertion_overwritten :
    (¬∀ text ds, Single text ds → ∀ e ∈ accepted text ds, e.new <:+: (apply text ds).1) ∧
      ¬∀ text ds, Single text ds → (made? text (schedule (greedy text (candidates ds)))).isSome = true := by
  let carry (start stop : Nat) (new : String) : Diagnostic :=
    ⟨"rule", .error, "", ⟨0, 0⟩, none, some ⟨"", [⟨⟨start, stop⟩, new.toList⟩]⟩⟩
  refine ⟨fun kept => ?_, fun fits => ?_⟩
  · have whole := kept "const a = 1".toList [carry 0 0 "export ", carry 0 5 "let"] (by decide +kernel)
    revert whole
    decide +kernel
  · have found := fits "abc".toList [carry 0 0 "é", carry 0 1 "A"] (by decide +kernel)
    revert found
    decide +kernel

end Fixes

end ComponentLint
