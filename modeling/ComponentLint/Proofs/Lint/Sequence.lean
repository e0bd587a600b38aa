import ComponentLint.Proofs.Lint.Substitution

/-! Fixes of one edit each that stand one behind the other. All of them are applied at once, whatever stands between
them, and what they make of the text is determined by their edits. -/
namespace ComponentLint

/-- What is sorted stays as it is. -/
theorem Sorting.sort_of_pairwise {α : Type} {le : α → α → Bool} {xs : List α}
    (sorted : xs.Pairwise fun a b => le a b = true) : sort le xs = xs := by
  induction xs with
  | nil => rfl
  | cons x xs ih =>
    obtain ⟨first, rest⟩ := List.pairwise_cons.1 sorted
    rw [sort, ih rest]
    cases xs with
    | nil => rfl
    | cons y ys => simp [insert, first y (by simp)]

namespace Edit

variable {es : List Edit} {text out : Text}

theorem Replaced.append (h : Replaced es text out) (behind : Text) : Replaced es (text ++ behind) (out ++ behind) := by
  cases h with
  | none t => exact .none _
  | more old rest before start stop =>
    simp only [List.append_assoc]
    exact .more old (rest ++ behind) before start stop

/-- Each edit has a piece of the text to replace, and of two edits the later one starts where the earlier has ended. -/
theorem Replaced.laid (h : Replaced es text out) :
    (∀ e ∈ es, e.fits text = true) ∧ es.Pairwise fun a b => a.span.stop ≤ b.span.start := by
  induction h with
  | none t => simp
  | @more es front made last old rest before start stop ih =>
    obtain ⟨fits, apart⟩ := ih
    constructor
    · intro e member
      rcases List.mem_append.1 member with early | here
      · obtain ⟨left, piece, right, split, starts, stops⟩ := fits_iff.1 (fits e early)
        exact fits_iff.2 ⟨left, piece, right ++ (old ++ rest), by simp [split], starts, stops⟩
      · obtain rfl := List.mem_singleton.1 here
        exact fits_iff.2 ⟨front, old, rest, rfl, start, stop⟩
    · apply List.pairwise_append.2
      refine ⟨apart, List.pairwise_singleton .., fun a early b here => ?_⟩
      obtain rfl := List.mem_singleton.1 here
      obtain ⟨left, piece, right, split, -, stops⟩ := fits_iff.1 (fits a early)
      rw [← start, ← stops, split]
      simp only [Text.byteSize_append]
      omega

/-- The edits determine what becomes of the text. -/
theorem Replaced.unique {other : Text} (h : Replaced es text out) (h' : Replaced es text other) : out = other := by
  induction h generalizing other with
  | none t =>
    generalize empty : ([] : List Edit) = none_ at h'
    cases h' with
    | none => rfl
    | more => simp at empty
  | @more es front made last old rest before start stop ih =>
    generalize edits : es ++ [last] = all at h'
    generalize whole : front ++ (old ++ rest) = text at h'
    cases h' with
    | none => simp at edits
    | @more es' front' made' last' old' rest' before' start' stop' =>
      obtain ⟨rfl, only⟩ := List.append_inj' edits rfl
      obtain rfl := List.singleton_inj.1 only
      -- both cut the text at the ends of the last edit
      obtain ⟨empty, rfl, behind⟩ := Text.cut_append whole (by omega)
      obtain rfl : empty = [] := by
        rw [← Text.byteSize_eq_zero_iff]
        rw [Text.byteSize_append] at start
        omega
      rw [List.append_nil] at start stop before ih
      obtain ⟨none_, rfl, rest_⟩ := Text.cut_append (show old' ++ rest' = old ++ rest from behind) (by
        simp only [Text.byteSize_append] at stop stop'
        omega)
      obtain rfl : none_ = [] := by
        rw [← Text.byteSize_eq_zero_iff]
        simp only [Text.byteSize_append] at stop stop'
        omega
      rw [ih before', rest_]
      rfl

/-- Edits that have their pieces and stand one behind the other come to something. -/
theorem exists_replaced (fits : ∀ e ∈ es, e.fits text = true)
    (apart : es.Pairwise fun a b => a.span.stop ≤ b.span.start) : ∃ out, Replaced es text out := by
  have backwards : ∀ e ∈ es.reverse, e.fits text = true := fun e member => fits e (List.mem_reverse.1 member)
  have made := Fixes.made?_of_apart backwards (List.pairwise_reverse.2 apart)
  rw [List.reverse_reverse] at made
  exact ⟨_, made.2⟩

end Edit

namespace Fix

theorem range_of_single {f : Fix} {e : Edit} (single : f.edits = [e]) : f.range = e.span := by
  simp [range, single]

end Fix

namespace Fixes

variable {text : Text} {fs : List Fix} {ds : List Diagnostic}

/-- Fixes that fit and stand one behind the other are all taken. -/
theorem greedy_of_apart (fits : ∀ f ∈ fs, f.Fits text)
    (apart : fs.Pairwise fun f g => f.range.stop ≤ g.range.start) : greedy text fs = fs := by
  induction fs using List.reverseRecOn with
  | nil => rfl
  | append_singleton fs last ih =>
    obtain ⟨before, -, behind⟩ := List.pairwise_append.1 apart
    have all := ih (fun f member => fits f (by simp [member])) before
    have free : ∀ g ∈ fs.getLast?, g.range.stop ≤ last.range.start :=
      fun g member => behind g (List.mem_of_mem_getLast? member) last (by simp)
    rw [greedy_concat, all, take, if_pos ⟨free, fits last (by simp)⟩]

/-- Edits that each replace something are made from the last to the first. -/
theorem schedule_of_apart (some_ : ∀ e ∈ fs.flatMap (·.edits), e.span.start < e.span.stop)
    (apart : (fs.flatMap (·.edits)).Pairwise fun a b => a.span.stop ≤ b.span.start) :
    schedule fs = (fs.flatMap (·.edits)).reverse := by
  have rising : (fs.flatMap (·.edits)).Pairwise fun a b => a.span.start < b.span.start := by
    apply apart.imp_of_mem
    intro a b inA _ before
    have positive := some_ a inA
    omega
  have distinct : ((fs.flatMap (·.edits)).map (·.span.start)).Nodup :=
    List.pairwise_map.2 (rising.imp fun less => by omega)
  have falling : (fs.flatMap (·.edits)).reverse.Pairwise fun a b => b.span.start ≤ a.span.start :=
    List.pairwise_reverse.2 (rising.imp fun less => by omega)
  have perm : (schedule fs).Perm (fs.flatMap (·.edits)).reverse := (schedule_perm fs).trans (List.reverse_perm _).symm
  apply List.Perm.eq_of_pairwise _ (schedule_pairwise fs) falling perm
  intro a b inA inB ab ba
  apply List.inj_on_of_nodup_map distinct ((schedule_perm fs).mem_iff.1 inA) (List.mem_reverse.1 inB)
  omega

/-- Fixes of one edit each, of which none is empty and each starts where the one before it has ended or behind it, are
all applied, and the outcome is the text with their edits in their places. -/
theorem apply_of_replaced {out : Text} (single : ∀ f ∈ carried ds, ∃ e, f.edits = [e])
    (some_ : ∀ e ∈ (carried ds).flatMap (·.edits), e.span.start < e.span.stop)
    (replaced : Edit.Replaced ((carried ds).flatMap (·.edits)) text out) :
    apply text ds = (out, (carried ds).length) := by
  obtain ⟨fits, apart⟩ := replaced.laid
  have range {f : Fix} (member : f ∈ carried ds) : ∃ e ∈ f.edits, f.range = e.span := by
    obtain ⟨e, only⟩ := single f member
    exact ⟨e, by simp [only], Fix.range_of_single only⟩
  have fits_ : ∀ f ∈ carried ds, f.Fits text :=
    fun f member e inF => fits e (List.mem_flatMap.2 ⟨f, member, inF⟩)
  have behind : (carried ds).Pairwise fun f g => f.range.stop ≤ g.range.start := by
    apply (List.pairwise_flatMap.1 apart).2.imp_of_mem
    intro f g inF inG each
    obtain ⟨a, inA, rangeA⟩ := range inF
    obtain ⟨b, inB, rangeB⟩ := range inG
    rw [rangeA, rangeB]
    exact each a inA b inB
  have sorted : candidates ds = carried ds := by
    apply Sorting.sort_of_pairwise
    apply behind.imp_of_mem
    intro f g inF _ before
    obtain ⟨a, inA, rangeA⟩ := range inF
    have positive := some_ a (List.mem_flatMap.2 ⟨f, inF, inA⟩)
    rw [rangeA] at before
    rw [rangeLe_iff, rangeA]
    omega
  have made := (made?_of_apart (schedule_fits fits_) (by
    rw [schedule_of_apart some_ apart]
    exact List.pairwise_reverse.2 apart)).2
  have same : run text (schedule (carried ds)) = out := by
    apply Edit.Replaced.unique _ replaced
    rwa [schedule_of_apart some_ apart, List.reverse_reverse, ← schedule_of_apart some_ apart] at made
  rw [apply, select_eq_greedy, sorted, greedy_of_apart fits_ behind, same]

/-- Fixes whose edits are given one by one, each with something to replace and behind the one before it. -/
theorem apply_of_apart {es : List Edit} (edits : (ds.filterMap (·.fix)).map (·.edits) = es.map ([·]))
    (fits : ∀ e ∈ es, e.fits text = true) (some_ : ∀ e ∈ es, e.span.start < e.span.stop)
    (apart : es.Pairwise fun a b => a.span.stop ≤ b.span.start) :
    ((ds.filterMap (·.fix)).Pairwise fun f g => f.range.stop ≤ g.range.start) ∧
      ∃ out, apply text ds = (out, (ds.filterMap (·.fix)).length) ∧
        Edit.Replaced ((ds.filterMap (·.fix)).flatMap (·.edits)) text out := by
  have ranges : (ds.filterMap (·.fix)).map (·.range) = es.map (·.span) := by
    have same := congrArg (List.map fun edits => Fix.range ⟨"", edits⟩) edits
    rw [List.map_map, List.map_map] at same
    exact same
  have single : ∀ f ∈ ds.filterMap (·.fix), ∃ e, f.edits = [e] := by
    intro f member
    have among := List.mem_map_of_mem (f := fun f : Fix => f.edits) member
    rw [edits] at among
    obtain ⟨e, -, only⟩ := List.mem_map.1 among
    exact ⟨e, only.symm⟩
  have all : carried ds = ds.filterMap (·.fix) := by
    apply List.filter_eq_self.2
    intro f member
    obtain ⟨e, only⟩ := single f member
    simp [only]
  have made : (ds.filterMap (·.fix)).flatMap (·.edits) = es := by
    rw [List.flatMap_def, edits, ← List.flatMap_def]
    exact List.flatMap_singleton' es
  constructor
  · rw [← List.pairwise_map (f := fun f : Fix => f.range) (R := fun a b => a.stop ≤ b.start), ranges, List.pairwise_map]
    exact apart
  · obtain ⟨out, replaced⟩ := Edit.exists_replaced fits apart
    rw [← all] at single
    rw [← all] at made
    rw [← made] at some_ replaced
    rw [← all]
    exact ⟨out, apply_of_replaced single some_ replaced, replaced⟩

end Fixes

end ComponentLint
