import ComponentLint.Proofs.Lint.Splicing
import Mathlib.Data.List.Nodup

/-! Applying fixes is substitution. Of the fixes in the order of their ranges those are taken that fit the text and do
not reach into one taken before, and all their edits are made at once. This holds of fixes whose edits each replace
something: of two edits at one place, where the first only puts in, the second would find what the first put there. -/
namespace ComponentLint

namespace Span

/-- Two spans have a byte in common. -/
def Overlaps (a b : Span) : Prop := max a.start b.start < min a.stop b.stop

instance (a b : Span) : Decidable (a.Overlaps b) := inferInstanceAs (Decidable (_ < _))

end Span

/-- Each edit of the fix replaces something, if it fits at all, and no two of them the same byte. -/
structure Fix.Separate (f : Fix) : Prop where
  replaces : ∀ e ∈ f.edits, e.span.start ≠ e.span.stop
  apart : f.edits.Pairwise fun a b => ¬a.span.Overlaps b.span

instance (f : Fix) : Decidable f.Separate :=
  decidable_of_iff ((∀ e ∈ f.edits, e.span.start ≠ e.span.stop) ∧ f.edits.Pairwise fun a b => ¬a.span.Overlaps b.span)
    ⟨fun ⟨replaces, apart⟩ => ⟨replaces, apart⟩, fun separate => ⟨separate.replaces, separate.apart⟩⟩

namespace Fixes

/-! ## The order of the fixes -/

/-- The fixes that diagnostics carry, those without edits left out. -/
def carried (ds : List Diagnostic) : List Fix := (ds.filterMap (·.fix)).filter fun f => !f.edits.isEmpty

theorem mem_carried {ds : List Diagnostic} {f : Fix} :
    f ∈ carried ds ↔ (∃ d ∈ ds, f ∈ d.fix) ∧ f.edits ≠ [] := by
  simp [carried, List.mem_filterMap]

theorem rangeLe_iff {a b : Span} :
    rangeLe a b = true ↔ a.start < b.start ∨ a.start = b.start ∧ a.stop ≤ b.stop := by
  simp [rangeLe]

theorem rangeLe_total (a b : Span) : rangeLe a b = true ∨ rangeLe b a = true := by
  rw [rangeLe_iff, rangeLe_iff]
  omega

theorem rangeLe_trans (a b c : Span) (ab : rangeLe a b = true) (bc : rangeLe b c = true) : rangeLe a c = true := by
  rw [rangeLe_iff] at *
  omega

theorem rangeLe_antisymm {a b : Span} (ab : rangeLe a b = true) (ba : rangeLe b a = true) : a = b := by
  rw [rangeLe_iff] at *
  cases a
  cases b
  simp only [Span.mk.injEq] at *
  omega

theorem candidates_perm (ds : List Diagnostic) : (candidates ds).Perm (carried ds) := Sorting.sort_perm _ _

theorem candidates_pairwise (ds : List Diagnostic) :
    (candidates ds).Pairwise fun f g => rangeLe f.range g.range = true := by
  apply Sorting.sort_pairwise
  · intro f g
    exact rangeLe_total f.range g.range
  · intro f g h
    exact rangeLe_trans f.range g.range h.range

/-- Fixes with one range keep the order of their diagnostics. -/
theorem candidates_filter (ds : List Diagnostic) (range : Span) :
    (candidates ds).filter (·.range = range) = (carried ds).filter (·.range = range) := by
  apply Sorting.sort_filter
  intro f g atF atG
  rw [of_decide_eq_true atF, of_decide_eq_true atG]
  exact (rangeLe_total range range).elim id id

/-- If each fix has a range of its own, the order of the diagnostics does not matter. -/
theorem candidates_congr {ds ds' : List Diagnostic} (perm : ds'.Perm ds) (distinct : ((carried ds).map (·.range)).Nodup) :
    candidates ds' = candidates ds := by
  have same : (carried ds').Perm (carried ds) := (perm.filterMap _).filter _
  have sorted : (candidates ds').Perm (candidates ds) :=
    (candidates_perm ds').trans (same.trans (candidates_perm ds).symm)
  apply List.Perm.eq_of_pairwise _ (candidates_pairwise ds') (candidates_pairwise ds) sorted
  intro f g inF inG before behind
  apply List.inj_on_of_nodup_map distinct
  · exact same.mem_iff.1 ((candidates_perm ds').mem_iff.1 inF)
  · exact (candidates_perm ds).mem_iff.1 inG
  · exact rangeLe_antisymm before behind

/-! ## The order of the edits -/

theorem schedule_perm (taken : List Fix) : (schedule taken).Perm (taken.flatMap (·.edits)) := Sorting.sort_perm _ _

theorem schedule_pairwise (taken : List Fix) : (schedule taken).Pairwise fun a b => b.span.start ≤ a.span.start := by
  apply List.Pairwise.imp of_decide_eq_true
  apply Sorting.sort_pairwise
  · intro a b
    simp only [decide_eq_true_eq]
    omega
  · intro a b c
    simp only [decide_eq_true_eq]
    omega

variable {text : Text} {taken : List Fix}

theorem schedule_fits (fits : ∀ f ∈ taken, f.Fits text) : ∀ e ∈ schedule taken, e.fits text = true := by
  intro e member
  obtain ⟨f, inF, edit⟩ := List.mem_flatMap.1 ((schedule_perm taken).mem_iff.1 member)
  exact fits f inF e edit

/-- The edits of fixes with ranges one after the other are apart, also those of one fix. -/
theorem edits_apart (fits : ∀ f ∈ taken, f.Fits text) (separate : ∀ f ∈ taken, f.Separate)
    (ordered : taken.Pairwise fun f g => f.range.stop ≤ g.range.start) :
    (taken.flatMap (·.edits)).Pairwise fun a b => a.span.stop ≤ b.span.start ∨ b.span.stop ≤ a.span.start := by
  refine List.pairwise_flatMap.2 ⟨fun f member => ?_, ordered.imp fun {f g} before a inF b inG => ?_⟩
  · apply (separate f member).apart.imp_of_mem
    intro a b inA inB disjoint
    have startA := Edit.span_le_of_fits (fits f member a inA)
    have startB := Edit.span_le_of_fits (fits f member b inB)
    have someA := (separate f member).replaces a inA
    have someB := (separate f member).replaces b inB
    rw [Span.Overlaps] at disjoint
    omega
  · have endsA := (Fix.range_covers inF).2
    have startsB := (Fix.range_covers inG).1
    omega

/-- From the end of the text on, no edit reaches into the one made before it. -/
theorem schedule_apart (fits : ∀ f ∈ taken, f.Fits text) (separate : ∀ f ∈ taken, f.Separate)
    (ordered : taken.Pairwise fun f g => f.range.stop ≤ g.range.start) :
    (schedule taken).Pairwise fun a b => b.span.stop ≤ a.span.start := by
  have apart : (schedule taken).Pairwise fun a b => a.span.stop ≤ b.span.start ∨ b.span.stop ≤ a.span.start :=
    ((schedule_perm taken).pairwise_iff Or.symm).2 (edits_apart fits separate ordered)
  apply ((schedule_pairwise taken).and apart).imp_of_mem
  rintro a b inA - ⟨later, before | behind⟩
  · -- an edit that ends in front of one that does not start behind it replaces nothing
    obtain ⟨f, inF, edit⟩ := List.mem_flatMap.1 ((schedule_perm taken).mem_iff.1 inA)
    have start := Edit.span_le_of_fits (fits f inF a edit)
    have some_ := (separate f inF).replaces a edit
    omega
  · exact behind

/-! ## The whole -/

variable {ds : List Diagnostic}

/-- Fixes whose edits replace something and do not overlap among themselves are applied as one substitution. The fixes
are sorted by range, those with one range in the order of their diagnostics; each is taken that fits the text and starts
where the last one taken has ended or behind it. Each edit of those taken finds a piece of the text that it is made in,
and the outcome is the text as it was with all of these edits in their places. The number that is told is that of the
fixes taken, none exactly if no fix with edits fits; and if all ranges differ, the diagnostics may come in any order. -/
theorem apply_substitutes (separate : ∀ d ∈ ds, ∀ f ∈ d.fix, f.Separate) :
    let taken := greedy text (candidates ds)
    let out := (apply text ds).1
    let applied := (apply text ds).2
    ((candidates ds).Perm (carried ds) ∧
      ((candidates ds).Pairwise fun f g =>
        f.range.start < g.range.start ∨ f.range.start = g.range.start ∧ f.range.stop ≤ g.range.stop) ∧
      ∀ range, (candidates ds).filter (·.range = range) = (carried ds).filter (·.range = range)) ∧
    (made? text (schedule taken) = some out ∧
      ∃ cuts, cuts.Perm (taken.flatMap (·.edits)) ∧ Edit.Replaced cuts text out) ∧
    (applied = taken.length ∧ (applied = 0 ↔ ∀ d ∈ ds, ∀ f ∈ d.fix, f.edits ≠ [] → ¬f.Fits text)) ∧
    (((carried ds).map (·.range)).Nodup → ∀ ds' : List Diagnostic, ds'.Perm ds → apply text ds' = apply text ds) := by
  intro taken out applied
  have fits : ∀ f ∈ taken, f.Fits text := fun f member => (mem_greedy member).2
  have separated : ∀ f ∈ taken, f.Separate := by
    intro f member
    obtain ⟨⟨d, inD, carries⟩, -⟩ := mem_carried.1 ((candidates_perm ds).mem_iff.1 (mem_greedy member).1)
    exact separate d inD f carries
  obtain ⟨made, replaced⟩ :=
    made?_of_apart (schedule_fits fits) (schedule_apart fits separated (greedy_apart text (candidates ds)))
  have whole : apply text ds = (run text (schedule taken), taken.length) := by rw [apply, select_eq_greedy]
  have text_ : out = run text (schedule taken) := congrArg Prod.fst whole
  have count : applied = taken.length := congrArg Prod.snd whole
  refine ⟨⟨candidates_perm ds, (candidates_pairwise ds).imp rangeLe_iff.1, candidates_filter ds⟩, ?_, ⟨count, ?_⟩, ?_⟩
  · rw [text_]
    exact ⟨made, (schedule taken).reverse, (List.reverse_perm _).trans (schedule_perm taken), replaced⟩
  · rw [count, List.length_eq_zero_iff, greedy_eq_nil_iff]
    constructor
    · intro none_ d inD f carries some_
      exact none_ f ((candidates_perm ds).mem_iff.2 (mem_carried.2 ⟨⟨d, inD, carries⟩, some_⟩))
    · intro none_ f member
      obtain ⟨⟨d, inD, carries⟩, some_⟩ := mem_carried.1 ((candidates_perm ds).mem_iff.1 member)
      exact none_ d inD f carries some_
  · intro distinct ds' perm
    rw [apply, apply, candidates_congr perm distinct]

theorem apply_substitutes_accents :
    let carry (edits : List Edit) : Diagnostic := ⟨"rule", .error, "", ⟨0, 0⟩, none, some ⟨"", edits⟩⟩
    let text : Text := "aéb日c".toList
    let ds := [carry [⟨⟨4, 7⟩, "day".toList⟩], carry [⟨⟨2, 4⟩, "x".toList⟩],
      carry [⟨⟨3, 4⟩, "B".toList⟩, ⟨⟨1, 3⟩, "e".toList⟩], carry [⟨⟨8, 7⟩, "y".toList⟩], carry []]
    (∀ d ∈ ds, ∀ f ∈ d.fix, f.Separate) ∧ apply text ds = ("aeBdayc".toList, 2) ∧
      (∃ cuts, cuts.Perm ((greedy text (candidates ds)).flatMap (·.edits)) ∧
        Edit.Replaced cuts text (apply text ds).1) ∧
      apply text ds.reverse = apply text ds := by
  intro carry text ds
  have separate : ∀ d ∈ ds, ∀ f ∈ d.fix, f.Separate := by decide +kernel
  obtain ⟨-, ⟨-, cut⟩, -, order⟩ := @apply_substitutes text ds separate
  exact ⟨separate, by decide +kernel, cut, order (by decide +kernel) ds.reverse (List.reverse_perm ds)⟩

end Fixes

end ComponentLint
