import ComponentLint.Lint.Fixes
import ComponentLint.Proofs.Text.Slice
import Mathlib.Data.List.Basic
import Mathlib.Data.List.Induction
import Mathlib.Tactic.SplitIfs

/-! Edits made one after the other, and the choice of the fixes that are made. From the end of a text on, each edit
finds the text in front of it as it was; so edits that are apart come to what they say all at once: the text is cut at
them, each piece gives way to its new text, and all else is kept. -/
namespace ComponentLint

/-! ## One edit -/

theorem Text.splice?_eq_some_iff {t new out : Text} {s : Span} :
    t.splice? s new = some out ↔ ∃ front old rest, t = front ++ (old ++ rest) ∧ byteSize front = s.start ∧
      byteSize (front ++ old) = s.stop ∧ out = front ++ (new ++ rest) := by
  rw [splice?]
  constructor
  · intro h
    obtain ⟨⟨front, behind⟩, cut, inner⟩ := Option.bind_eq_some_iff.1 h
    obtain ⟨⟨old, rest⟩, again, made⟩ := Option.bind_eq_some_iff.1 inner
    have ordered : s.start ≤ s.stop := by
      by_contra crossed
      simp [crossed] at made
    simp only [ordered, if_true] at made
    obtain ⟨rfl, start⟩ := eq_append_of_splitAt? cut
    obtain ⟨rfl, size⟩ := eq_append_of_splitAt? again
    obtain rfl := Option.some.inj made
    refine ⟨front, old, rest, rfl, start, ?_, by simp⟩
    rw [byteSize_append]
    omega
  · rintro ⟨front, old, rest, rfl, start, stop, rfl⟩
    rw [byteSize_append] at stop
    have cut : splitAt? s.start (front ++ (old ++ rest)) = some (front, old ++ rest) :=
      splitAt?_eq_some_iff.2 ⟨rfl, start⟩
    have again : splitAt? (s.stop - s.start) (old ++ rest) = some (old, rest) :=
      splitAt?_eq_some_iff.2 ⟨rfl, by omega⟩
    have ordered : s.start ≤ s.stop := by omega
    simp [cut, again, ordered]

namespace Edit

/-- An edit fits a text where there is a piece for it to replace. -/
theorem fits_iff {text : Text} {e : Edit} :
    e.fits text = true ↔ ∃ front old rest, text = front ++ (old ++ rest) ∧ Text.byteSize front = e.span.start ∧
      Text.byteSize (front ++ old) = e.span.stop := by
  constructor
  · intro h
    simp only [fits, Bool.and_eq_true, decide_eq_true_eq] at h
    obtain ⟨⟨ordered, starts⟩, stops⟩ := h
    obtain ⟨⟨front, behind⟩, first⟩ := Option.isSome_iff_exists.1 starts
    obtain ⟨⟨through, rest⟩, last⟩ := Option.isSome_iff_exists.1 stops
    obtain ⟨rfl, start⟩ := Text.eq_append_of_splitAt? first
    obtain ⟨same, stop⟩ := Text.eq_append_of_splitAt? last
    obtain ⟨old, rfl, rfl⟩ := Text.cut_append same.symm (by omega)
    exact ⟨front, old, rest, rfl, start, stop⟩
  · rintro ⟨front, old, rest, rfl, start, stop⟩
    have piece := Text.isBoundary_of_slice? (Text.slice?_eq_some_iff.2 ⟨front, rest, rfl, start, stop⟩)
    rw [Text.byteSize_append] at stop
    have ordered : e.span.start ≤ e.span.stop := by omega
    simp [fits, ordered, piece]

/-- What is behind the edit makes no difference to whether it fits. -/
theorem fits_of_append {front behind : Text} {e : Edit} (fits : e.fits (front ++ behind) = true)
    (inside : e.span.stop ≤ Text.byteSize front) : e.fits front = true := by
  obtain ⟨before, old, rest, split, start, stop⟩ := fits_iff.1 fits
  rw [← List.append_assoc] at split
  obtain ⟨more, rfl, -⟩ := Text.cut_append split (by omega)
  exact fits_iff.2 ⟨before, old, more, by simp, start, stop⟩

theorem span_le_of_fits {text : Text} {e : Edit} (fits : e.fits text = true) : e.span.start ≤ e.span.stop := by
  obtain ⟨front, old, -, -, start, stop⟩ := fits_iff.1 fits
  rw [Text.byteSize_append] at stop
  omega

/-! ## All edits at once -/

/-- A text with edits made in it: what stands outside of them is kept, and each puts its new text in the place of its
piece. The edits stand in the order of the text, and their spans are those of the text as it was. -/
inductive Replaced : List Edit → Text → Text → Prop where
  | none (t : Text) : Replaced [] t t
  | more {es : List Edit} {front made : Text} {e : Edit} (old rest : Text) : Replaced es front made →
      Text.byteSize front = e.span.start → Text.byteSize (front ++ old) = e.span.stop →
      Replaced (es ++ [e]) (front ++ (old ++ rest)) (made ++ (e.new ++ rest))

/-- Each new text stands in the outcome whole. -/
theorem Replaced.new_infix {es : List Edit} {text out : Text} (h : Replaced es text out) {e : Edit} (member : e ∈ es) :
    e.new <:+: out := by
  induction h with
  | none t => simp at member
  | @more es front made last old rest _ _ _ ih =>
    rcases List.mem_append.1 member with early | here
    · exact (ih early).trans (List.prefix_append made _).isInfix
    · obtain rfl := List.mem_singleton.1 here
      exact ⟨made, rest, by simp⟩

end Edit

namespace Fixes

open Edit

/-- The text after edits that are made one after the other, if each has its piece in the text that it is made in. -/
def made? (text : Text) (edits : List Edit) : Option Text := edits.foldlM (fun t e => e.applied? t) text

theorem run_of_made? {text out : Text} {edits : List Edit} (made : made? text edits = some out) :
    run text edits = out := by
  induction edits generalizing text with
  | nil => exact Option.some.inj made
  | cons e edits ih =>
    rw [made?, List.foldlM_cons] at made
    obtain ⟨next, once, rest⟩ := Option.bind_eq_some_iff.1 made
    rw [run, List.foldl_cons, once]
    exact ih rest

/-- Edits from the end of a text on, none reaching into the one made before it, each have their piece, whatever is put
behind the text. -/
theorem made?_append {text : Text} {edits : List Edit} (fits : ∀ e ∈ edits, e.fits text = true)
    (apart : edits.Pairwise fun a b => b.span.stop ≤ a.span.start) :
    ∃ out, Replaced edits.reverse text out ∧ ∀ behind, made? (text ++ behind) edits = some (out ++ behind) := by
  induction edits generalizing text with
  | nil => exact ⟨text, .none text, fun _ => rfl⟩
  | cons e edits ih =>
    obtain ⟨first, later⟩ := List.pairwise_cons.1 apart
    obtain ⟨front, old, rest, rfl, start, stop⟩ := fits_iff.1 (fits e (by simp))
    have inFront : ∀ e' ∈ edits, e'.fits front = true := by
      intro e' member
      apply fits_of_append (fits e' (by simp [member]))
      rw [start]
      exact first e' member
    obtain ⟨made, replaced, runs⟩ := ih inFront later
    refine ⟨made ++ (e.new ++ rest), ?_, fun behind => ?_⟩
    · rw [List.reverse_cons]
      exact replaced.more old rest start stop
    · have once : e.applied? (front ++ (old ++ rest) ++ behind) = some (front ++ (e.new ++ (rest ++ behind))) :=
        Text.splice?_eq_some_iff.2 ⟨front, old, rest ++ behind, by simp, start, stop, rfl⟩
      have all := runs (e.new ++ (rest ++ behind))
      rw [made?, List.foldlM_cons, once]
      simpa [made?] using all

theorem made?_of_apart {text : Text} {edits : List Edit} (fits : ∀ e ∈ edits, e.fits text = true)
    (apart : edits.Pairwise fun a b => b.span.stop ≤ a.span.start) :
    made? text edits = some (run text edits) ∧ Replaced edits.reverse text (run text edits) := by
  obtain ⟨out, replaced, runs⟩ := made?_append fits apart
  have made : made? text edits = some out := by simpa using runs []
  rw [run_of_made? made]
  exact ⟨made, replaced⟩

end Fixes

/-! ## The range of a fix -/

/-- What bounds both arguments of an operation bounds all values that are folded with it. -/
theorem foldl_bound {α : Type} (le : Nat → Nat → Prop) (refl : ∀ n, le n n)
    (trans : ∀ {a b c}, le a b → le b c → le a c) {op : Nat → Nat → Nat} (left : ∀ a b, le (op a b) a)
    (right : ∀ a b, le (op a b) b) (value : α → Nat) (xs : List α) (first : Nat) :
    le (xs.foldl (fun n x => op n (value x)) first) first ∧
      ∀ x ∈ xs, le (xs.foldl (fun n x => op n (value x)) first) (value x) := by
  induction xs generalizing first with
  | nil => exact ⟨refl first, by simp⟩
  | cons x xs ih =>
    obtain ⟨bound, all⟩ := ih (op first (value x))
    refine ⟨trans bound (left first (value x)), fun y member => ?_⟩
    rcases List.mem_cons.1 member with rfl | later
    · exact trans bound (right first (value y))
    · exact all y later

namespace Fix

/-- The range of a fix covers each of its edits. -/
theorem range_covers {f : Fix} {e : Edit} (member : e ∈ f.edits) :
    f.range.start ≤ e.span.start ∧ e.span.stop ≤ f.range.stop := by
  obtain ⟨message, edits⟩ := f
  cases edits with
  | nil => simp at member
  | cons first rest =>
    obtain ⟨least, leasts⟩ := foldl_bound (· ≤ ·) Nat.le_refl Nat.le_trans Nat.min_le_left Nat.min_le_right
      (fun e : Edit => e.span.start) rest first.span.start
    obtain ⟨greatest, greatests⟩ := foldl_bound (fun a b => b ≤ a) Nat.le_refl (fun ab bc => Nat.le_trans bc ab)
      Nat.le_max_left Nat.le_max_right (fun e : Edit => e.span.stop) rest first.span.stop
    rcases List.mem_cons.1 member with rfl | later
    · exact ⟨least, greatest⟩
    · exact ⟨leasts e later, greatests e later⟩

/-- A fix fits a text if each of its edits does. -/
def Fits (text : Text) (f : Fix) : Prop := ∀ e ∈ f.edits, e.fits text = true

instance (text : Text) (f : Fix) : Decidable (f.Fits text) := inferInstanceAs (Decidable (∀ e ∈ f.edits, _))

theorem range_le_of_fits {text : Text} {f : Fix} (fits : f.Fits text) : f.range.start ≤ f.range.stop := by
  cases edits : f.edits with
  | nil => simp [range, edits]
  | cons e rest =>
    have member : e ∈ f.edits := by simp [edits]
    have covered := range_covers member
    have ordered := Edit.span_le_of_fits (fits e member)
    omega

end Fix

/-! ## The choice of fixes -/

namespace Fixes

/-- One step of the choice: a fix is taken that fits the text and does not start before the last one taken ends. -/
def take (text : Text) (taken : List Fix) (f : Fix) : List Fix :=
  if (∀ g ∈ taken.getLast?, g.range.stop ≤ f.range.start) ∧ f.Fits text then taken ++ [f] else taken

/-- The fixes that are taken, one after another. -/
def greedy (text : Text) (fs : List Fix) : List Fix := fs.foldl (take text) []

variable {text : Text} {fs : List Fix}

theorem greedy_concat (f : Fix) : greedy text (fs ++ [f]) = take text (greedy text fs) f := by
  rw [greedy, List.foldl_append]
  rfl

theorem foldl_take (taken : List Fix) :
    fs.foldl (take text) taken = taken ++ select text (taken.getLast?.map (·.range.stop)) fs := by
  induction fs generalizing taken with
  | nil => simp [select]
  | cons f fs ih =>
    have waits : (taken.getLast?.map (·.range.stop)).any (f.range.start < ·) = true ↔
        ¬∀ g ∈ taken.getLast?, g.range.stop ≤ f.range.start := by
      cases taken.getLast? <;> simp
    have fits : f.edits.all (·.fits text) = true ↔ f.Fits text := List.all_eq_true
    rw [List.foldl_cons, ih, take, select]
    by_cases free : ∀ g ∈ taken.getLast?, g.range.stop ≤ f.range.start
    · by_cases whole : f.Fits text
      · rw [if_pos ⟨free, whole⟩, if_neg (by rw [waits]; exact not_not_intro free), if_pos (fits.2 whole)]
        simp
      · rw [if_neg fun both => whole both.2, if_neg (by rw [waits]; exact not_not_intro free),
          if_neg fun all => whole (fits.1 all)]
    · rw [if_neg fun both => free both.1, if_pos (waits.2 free)]

theorem select_eq_greedy (text : Text) (fs : List Fix) : select text none fs = greedy text fs :=
  (foldl_take []).symm

theorem take_cases (text : Text) (taken : List Fix) (f : Fix) :
    take text taken f = taken ∨
      take text taken f = taken ++ [f] ∧ f.Fits text ∧ ∀ g ∈ taken.getLast?, g.range.stop ≤ f.range.start := by
  rw [take]
  split_ifs with taking
  · exact .inr ⟨rfl, taking.2, taking.1⟩
  · exact .inl rfl

/-- Fixes that are taken are among those that there are to take, and fit the text. -/
theorem mem_greedy {f : Fix} (member : f ∈ greedy text fs) : f ∈ fs ∧ f.Fits text := by
  induction fs using List.reverseRecOn with
  | nil => simp [greedy] at member
  | append_singleton fs last ih =>
    rw [greedy_concat] at member
    rcases take_cases text (greedy text fs) last with left | ⟨taken, fits, -⟩
    · rw [left] at member
      exact ⟨List.mem_append_left _ (ih member).1, (ih member).2⟩
    · rw [taken] at member
      rcases List.mem_append.1 member with early | here
      · exact ⟨List.mem_append_left _ (ih early).1, (ih early).2⟩
      · obtain rfl := List.mem_singleton.1 here
        exact ⟨by simp, fits⟩

/-- Of two fixes that are taken the later starts where the earlier has ended. -/
theorem greedy_apart (text : Text) (fs : List Fix) :
    (greedy text fs).Pairwise fun f g => f.range.stop ≤ g.range.start := by
  induction fs using List.reverseRecOn with
  | nil => exact .nil
  | append_singleton fs last ih =>
    rw [greedy_concat]
    rcases take_cases text (greedy text fs) last with left | ⟨taken, -, behind⟩
    · rw [left]
      exact ih
    · rw [taken]
      refine List.pairwise_append.2 ⟨ih, List.pairwise_singleton .., fun f member g here => ?_⟩
      obtain rfl := List.mem_singleton.1 here
      -- the last one taken ends behind all that were taken before it
      obtain ⟨most, end_, split⟩ := List.eq_nil_or_concat' (greedy text fs) |>.resolve_left (List.ne_nil_of_mem member)
      have ends : end_ ∈ greedy text fs := by simp [split]
      have reached : end_.range.stop ≤ g.range.start := behind end_ (by simp [split])
      rw [split] at member ih
      rcases List.mem_append.1 member with early | late
      · have between := (List.pairwise_append.1 ih).2.2 f early end_ (by simp)
        have ordered := Fix.range_le_of_fits (mem_greedy ends).2
        omega
      · obtain rfl := List.mem_singleton.1 late
        exact reached

/-- Nothing is taken only where nothing fits. -/
theorem greedy_eq_nil_iff : greedy text fs = [] ↔ ∀ f ∈ fs, ¬f.Fits text := by
  induction fs using List.reverseRecOn with
  | nil => simp [greedy]
  | append_singleton fs last ih =>
    rw [greedy_concat, List.forall_mem_append, ← ih, List.forall_mem_singleton]
    constructor
    · intro none_
      have before : greedy text fs = [] := by
        rcases take_cases text (greedy text fs) last with left | ⟨taken, -, -⟩
        · rwa [left] at none_
        · simp [taken] at none_
      refine ⟨before, fun fits => ?_⟩
      simp [take, before, fits] at none_
    · rintro ⟨before, other⟩
      simp [take, before, other]

end Fixes

end ComponentLint
