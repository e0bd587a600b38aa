import ComponentLint.Lint.Linter
import ComponentLint.Proofs.Lint.ImportRanges
import ComponentLint.Proofs.Lint.Sequence

/-! Every import declaration with an unused binding is reported and repaired within itself. The repairs of all
declarations stand apart, so that they are all made at once. The ends of the names are looked for in the text, where a
brace in a comment is a brace too; what is left of the old names may then break the script. -/
namespace ComponentLint

namespace Span

def Covers (whole part : Span) : Prop := whole.start ≤ part.start ∧ part.stop ≤ whole.stop

instance (whole part : Span) : Decidable (whole.Covers part) := inferInstanceAs (Decidable (_ ∧ _))

/-- Of two things whose spans stand one behind the other one is in front, if they are not the same. -/
theorem eq_or_apart {α : Type} {span : α → Span} {xs : List α}
    (apart : xs.Pairwise fun a b => (span a).stop ≤ (span b).start) {a b : α} (inA : a ∈ xs) (inB : b ∈ xs) :
    a = b ∨ (span a).stop ≤ (span b).start ∨ (span b).stop ≤ (span a).start := by
  induction apart with
  | nil => contradiction
  | cons first _ ih =>
    rcases List.mem_cons.1 inA with rfl | laterA <;> rcases List.mem_cons.1 inB with rfl | laterB
    · exact .inl rfl
    · exact .inr (.inl (first b laterB))
    · exact .inr (.inr (first a laterA))
    · exact ih laterA laterB

end Span

namespace UnusedImports

open TypeScript

variable {source : Text} {d d' : ImportDeclaration} {kept : List ImportBinding} {e : Edit}

/-! ## The repair of one declaration -/

/-- An edit repairs a declaration of which only some bindings are kept. With none of them left, it takes the declaration
away, and no more behind it than the rest of its line; otherwise it stays inside and writes the kept ones anew. -/
structure Repairs (source : Text) (d : ImportDeclaration) (kept : List ImportBinding) (e : Edit) : Prop where
  starts : d.span.start ≤ e.span.start
  some_ : e.span.start < e.span.stop
  fits : e.fits source = true
  removes : kept = [] → e.new = [] ∧ e.span.start = d.span.start ∧
    ∃ gap ∈ source.slice? ⟨d.span.stop, e.span.stop⟩, IsLineRest gap
  reduces : kept ≠ [] → e.span.stop ≤ d.span.stop ∧
    Listed ((kept.filter (fun b => !isNamed b) ++ kept.filter isNamed).map fun b => source.slice b.span) e.new

theorem removal_repairs (laid : LaidOut source d) :
    ∃ e, (removal source d.span).edits = [e] ∧ Repairs source d [] e := by
  obtain ⟨piece, cut, -⟩ := laid.begins
  obtain ⟨before, after, split, start, stop⟩ := Text.slice?_eq_some_iff.1 cut
  have behind : source.slice ⟨d.span.stop, source.byteSize⟩ = after := by
    obtain ⟨-, right⟩ : _ ∧ Text.slice (before ++ (piece ++ after)) ⟨Text.byteSize before + Text.byteSize piece,
        Text.byteSize (before ++ (piece ++ after))⟩ = after := Text.slice_sides
    rwa [← split, ← Text.byteSize_append, stop] at right
  obtain ⟨gap, rest, parts, size, isRest⟩ := lineRest_eq after
  have positive := laid.span_pos
  have gone : source.slice? ⟨d.span.stop, d.span.stop + lineRest after⟩ = some gap :=
    Text.slice?_eq_some_iff.2 ⟨before ++ piece, rest, by simp [split, parts], stop, by
      rw [Text.byteSize_append, stop, size]⟩
  refine ⟨⟨⟨d.span.start, d.span.stop + lineRest after⟩, []⟩, ?_, Nat.le_refl _, ?_, ?_, ?_, by simp⟩
  · rw [removal, behind]
    rfl
  · dsimp only
    omega
  · refine Edit.fits_iff.2 ⟨before, piece ++ gap, rest, by simp [split, parts], start, ?_⟩
    rw [← List.append_assoc, Text.byteSize_append, stop, size]
  · exact fun _ => ⟨rfl, rfl, gap, gone, isRest⟩

theorem reduction_repairs (laid : LaidOut source d) {first last : ImportBinding} (head : first ∈ d.bindings.head?)
    (end_ : last ∈ d.bindings.getLast?) (some_ : kept ≠ []) :
    ∃ e, (reduction source first last kept).edits = [e] ∧ Repairs source d kept e := by
  have inFirst := List.mem_of_mem_head? head
  have inLast := List.mem_of_mem_getLast? end_
  obtain ⟨low, early, startsAt⟩ := laid.clauseStart inFirst
  obtain ⟨late, high, stopsAt⟩ := laid.clauseStop inLast
  have ordered : first.span.stop ≤ last.span.stop := by
    obtain ⟨rest, split⟩ : ∃ rest, d.bindings = first :: rest := ⟨_, List.eq_cons_of_mem_head? head⟩
    have apart := laid.ordered
    rw [split] at apart inLast
    rcases List.mem_cons.1 inLast with rfl | later
    · exact Nat.le_refl _
    · have before := List.rel_of_pairwise_cons apart later
      have positive := laid.binding_pos (List.mem_of_mem_getLast? end_)
      omega
  have positive := laid.binding_pos inFirst
  refine ⟨⟨⟨clauseStart source first, clauseStop source last⟩, clause source kept⟩, rfl, low, ?_, ?_, ?_, ?_⟩
  · dsimp only
    omega
  · simp only [Edit.fits, startsAt, stopsAt, Bool.and_true, decide_eq_true_eq]
    omega
  · exact fun none_ => absurd none_ some_
  · exact fun _ => ⟨high, listed_clause source kept⟩

theorem fix_repairs (laid : LaidOut source d) (among : kept.Sublist d.bindings) :
    ∃ e, (fix source d kept).edits = [e] ∧ Repairs source d kept e := by
  cases kept with
  | nil => exact removal_repairs laid
  | cons b kept =>
    have filled : d.bindings ≠ [] := List.ne_nil_of_mem (among.subset (List.mem_cons_self ..))
    have head := List.head?_eq_some_head filled
    have end_ := List.getLast?_eq_some_getLast filled
    simp only [fix, head, end_]
    exact reduction_repairs laid head end_ (by simp)

/-- A repair has ended where the next declaration begins. -/
theorem Repairs.stop_le (h : Repairs source d kept e) (next : LaidOut source d')
    (behind : d.span.stop ≤ d'.span.start) : e.span.stop ≤ d'.span.start := by
  by_cases none_ : kept = []
  · obtain ⟨-, -, gap, cut, isRest⟩ := h.removes none_
    obtain ⟨piece, cut', some_, sharp⟩ := next.begins
    by_contra reaches
    obtain ⟨c, more, rfl⟩ := List.exists_cons_of_ne_nil some_
    have inGap := Text.mem_of_slice? cut cut' behind (by dsimp only; omega)
    have blank := isRest.blank inGap
    simp [blank] at sharp
  · obtain ⟨inside, -⟩ := h.reduces none_
    omega

/-! ## What is reported of one declaration -/

variable {used : ImportBinding → Bool} {r : Remark} {a b : ImportBinding}

theorem remarks_cases (source : Text) (used : ImportBinding → Bool) (d : ImportDeclaration) :
    ((∀ b ∈ d.bindings, used b = true) ∧ remarks source used d = []) ∨
    ((∀ b ∈ d.bindings, used b = false) ∧ d.bindings ≠ [] ∧ remarks source used d =
      [⟨"All imports in import declaration are unused.", d.span, none, some (fix source d (d.bindings.filter used))⟩]) ∨
    ∃ first rest, (d.bindings.filter fun b => !used b) = first :: rest ∧ remarks source used d =
      ⟨message first, first.localSpan, none, some (fix source d (d.bindings.filter used))⟩ ::
        rest.map fun b => ⟨message b, b.localSpan, none, none⟩ := by
  rw [remarks]
  cases unused : d.bindings.filter fun b => !used b with
  | nil =>
    refine .inl ⟨fun b member => ?_, rfl⟩
    simpa using List.filter_eq_nil_iff.1 unused b member
  | cons first rest =>
    right
    by_cases all : d.bindings.filter used = [] ∧ 1 < d.bindings.length
    · refine .inl ⟨fun b member => ?_, ?_, ?_⟩
      · simpa using List.filter_eq_nil_iff.1 all.1 b member
      · exact List.ne_nil_of_length_pos (by omega)
      · simp [all]
    · refine .inr ⟨first, rest, rfl, ?_⟩
      rw [if_neg (by simp), if_neg (by simpa using all)]
      rfl

/-- A remark stands at the whole declaration, if nothing of it is used, or at an unused binding. -/
theorem span_of_mem_remarks (member : r ∈ remarks source used d) :
    (r.span = d.span ∧ ∀ b ∈ d.bindings, used b = false) ∨
      ∃ b ∈ d.bindings, used b = false ∧ r.span = b.localSpan := by
  rcases remarks_cases source used d with ⟨-, none_⟩ | ⟨all, -, whole⟩ | ⟨first, rest, unused, each⟩
  · simp [none_] at member
  · rw [whole, List.mem_singleton] at member
    exact .inl ⟨by rw [member], all⟩
  · right
    have among : ∀ b ∈ first :: rest, b ∈ d.bindings ∧ used b = false := by
      intro b inside
      rw [← unused] at inside
      simpa using List.mem_filter.1 inside
    rw [each] at member
    rcases List.mem_cons.1 member with rfl | later
    · obtain ⟨inD, free⟩ := among first (by simp)
      exact ⟨first, inD, free, rfl⟩
    · obtain ⟨b, inside, rfl⟩ := List.mem_map.1 later
      obtain ⟨inD, free⟩ := among b (by simp [inside])
      exact ⟨b, inD, free, rfl⟩

theorem LaidOut.covers_local (laid : LaidOut source d) (member : b ∈ d.bindings) : d.span.Covers b.localSpan := by
  obtain ⟨start, stop, -⟩ := laid.inside b member
  obtain ⟨early, -, late⟩ := laid.names b member
  constructor <;> omega

theorem LaidOut.eq_of_covers (laid : LaidOut source d) (inA : a ∈ d.bindings) (inB : b ∈ d.bindings)
    (covers : a.localSpan.Covers b.localSpan) : a = b := by
  obtain ⟨startA, someA, stopA⟩ := laid.names a inA
  obtain ⟨startB, someB, stopB⟩ := laid.names b inB
  obtain ⟨low, high⟩ := covers
  rcases Span.eq_or_apart laid.ordered inA inB with same | before | behind
  · exact same
  · omega
  · omega

theorem covers_of_mem_remarks (laid : LaidOut source d) (member : r ∈ remarks source used d) : d.span.Covers r.span := by
  rcases span_of_mem_remarks member with ⟨whole, -⟩ | ⟨b, inside, -, at_⟩
  · rw [whole]
    exact ⟨Nat.le_refl _, Nat.le_refl _⟩
  · rw [at_]
    exact laid.covers_local inside

/-- The remarks on a declaration cover those of its bindings that are not used. -/
theorem covered_iff (laid : LaidOut source d) (member : b ∈ d.bindings) :
    (∃ r ∈ remarks source used d, r.span.Covers b.localSpan) ↔ used b = false := by
  constructor
  · rintro ⟨r, inside, covers⟩
    rcases span_of_mem_remarks inside with ⟨-, all⟩ | ⟨a, inA, free, at_⟩
    · exact all b member
    · rw [at_] at covers
      rw [← laid.eq_of_covers inA member covers]
      exact free
  · intro free
    rcases remarks_cases source used d with ⟨all, -⟩ | ⟨-, -, whole⟩ | ⟨first, rest, unused, each⟩
    · rw [all b member] at free
      contradiction
    · exact ⟨_, by rw [whole]; exact List.mem_singleton_self _, laid.covers_local member⟩
    · have inside : b ∈ first :: rest := by
        rw [← unused]
        simp [member, free]
      rw [each]
      rcases List.mem_cons.1 inside with rfl | later
      · exact ⟨_, List.mem_cons_self .., Nat.le_refl _, Nat.le_refl _⟩
      · refine ⟨_, List.mem_cons_of_mem _ (List.mem_map_of_mem later), Nat.le_refl _, Nat.le_refl _⟩

/-- Exactly the first remark on a declaration has a fix. -/
theorem remarks_fixed (source : Text) (used : ImportBinding → Bool) (d : ImportDeclaration) :
    ((∀ b ∈ d.bindings, used b = true) ∧ remarks source used d = []) ∨
    ((∃ b ∈ d.bindings, used b = false) ∧ ∃ r ∈ remarks source used d,
      r.fix = some (fix source d (d.bindings.filter used)) ∧
        (remarks source used d).filter (·.fix.isSome) = [r]) := by
  rcases remarks_cases source used d with none_ | ⟨all, filled, whole⟩ | ⟨first, rest, unused, each⟩
  · exact .inl none_
  · right
    obtain ⟨b, member⟩ := List.exists_mem_of_ne_nil _ filled
    rw [whole]
    exact ⟨⟨b, member, all b member⟩, _, List.mem_singleton_self _, rfl, rfl⟩
  · right
    have inside : first ∈ d.bindings ∧ used first = false := by
      have among : first ∈ d.bindings.filter fun b => !used b := by simp [unused]
      simpa using List.mem_filter.1 among
    rw [each]
    refine ⟨⟨first, inside⟩, _, List.mem_cons_self .., rfl, ?_⟩
    simp

/-! ## All declarations -/

/-- A binding that the script has no reference to, and that the markup around it does not mention. -/
def Unused (s : Subject) (b : ImportBinding) : Prop :=
  b.localName ∉ s.script.outline.uses ∧ ∀ part ∈ markup s.unit, Text.mentions b.localName part = false

instance (s : Subject) (b : ImportBinding) : Decidable (Unused s b) := inferInstanceAs (Decidable (_ ∧ _))

theorem isUsed_eq_false_iff {s : Subject} :
    isUsed s.script.outline.uses (markup s.unit) b = false ↔ Unused s b := by
  simp [isUsed, Unused]

theorem isUsed_eq (s : Subject) :
    isUsed s.script.outline.uses (markup s.unit) = fun b => !decide (Unused s b) := by
  funext b
  by_cases unused : Unused s b
  · rw [isUsed_eq_false_iff.2 unused, decide_eq_true unused]
    rfl
  · rw [Bool.of_not_eq_false (mt isUsed_eq_false_iff.1 unused), decide_eq_false unused]
    rfl

variable {imports : List ImportDeclaration} {es : List Edit}

/-- The remarks with a fix are one for each declaration of which something is unused. -/
theorem remarks_repair (used : ImportBinding → Bool) (laid : ∀ d ∈ imports, LaidOut source d) :
    List.Forall₂ (fun d r => d.span.Covers r.span ∧
        ∃ f ∈ r.fix, ∃ e, f.edits = [e] ∧ Repairs source d (d.bindings.filter used) e)
      (imports.filter fun d => ∃ b ∈ d.bindings, used b = false)
      ((imports.flatMap (remarks source used)).filter (·.fix.isSome)) := by
  induction imports with
  | nil => exact .nil
  | cons d imports ih =>
    have later := ih fun d member => laid d (by simp [member])
    rw [List.flatMap_cons, List.filter_append]
    rcases remarks_fixed source used d with ⟨all, none_⟩ | ⟨some_, r, member, carries, only⟩
    · rw [none_, List.filter_cons_of_neg (by simpa using all)]
      exact later
    · have laidD := laid d (List.mem_cons_self ..)
      obtain ⟨e, edits, repairs⟩ := fix_repairs laidD (List.filter_sublist (p := used))
      rw [only, List.filter_cons_of_pos (by simpa using some_)]
      exact .cons ⟨covers_of_mem_remarks laidD member, _, carries, e, edits, repairs⟩ later

variable {kept : ImportDeclaration → List ImportBinding}

theorem repairs_behind {n : Nat} (each : List.Forall₂ (fun d e => Repairs source d (kept d) e) imports es)
    (behind : ∀ d ∈ imports, n ≤ d.span.start) : ∀ e ∈ es, n ≤ e.span.start := by
  induction each with
  | nil => simp
  | @cons d e imports es repairs rest ih =>
    have starts := repairs.starts
    have first := behind d (List.mem_cons_self ..)
    intro e' member
    rcases List.mem_cons.1 member with rfl | later
    · omega
    · exact ih (fun d' inRest => behind d' (List.mem_cons_of_mem _ inRest)) e' later

theorem repairs_fit (each : List.Forall₂ (fun d e => Repairs source d (kept d) e) imports es) :
    ∀ e ∈ es, e.fits source = true ∧ e.span.start < e.span.stop := by
  induction each with
  | nil => simp
  | cons repairs _ ih => exact List.forall_mem_cons.2 ⟨⟨repairs.fits, repairs.some_⟩, ih⟩

theorem repairs_apart (laid : ∀ d ∈ imports, LaidOut source d)
    (apart : imports.Pairwise fun d d' => d.span.stop ≤ d'.span.start)
    (each : List.Forall₂ (fun d e => Repairs source d (kept d) e) imports es) :
    es.Pairwise fun e e' => e.span.stop ≤ e'.span.start := by
  induction each with
  | nil => exact .nil
  | @cons d e imports es repairs rest ih =>
    obtain ⟨first, later⟩ := List.pairwise_cons.1 apart
    have laidRest : ∀ d' ∈ imports, LaidOut source d' := fun d' member => laid d' (List.mem_cons_of_mem _ member)
    apply List.pairwise_cons.2
    constructor
    · exact repairs_behind rest fun d' member => repairs.stop_le (laidRest d' member) (first d' member)
    · exact ih laidRest later

/-- The fixes of the remarks, by their edits. -/
theorem fixes_repair {rs : List Remark}
    (each : List.Forall₂ (fun d r => d.span.Covers r.span ∧ ∃ f ∈ r.fix, ∃ e, f.edits = [e] ∧
      Repairs source d (kept d) e) imports (rs.filter (·.fix.isSome))) :
    ∃ es, (rs.filterMap (·.fix)).map (·.edits) = es.map ([·]) ∧
      List.Forall₂ (fun d e => Repairs source d (kept d) e) imports es := by
  have carrying : (rs.filter (·.fix.isSome)).filterMap (·.fix) = rs.filterMap (·.fix) := by
    rw [List.filterMap_filter]
    congr 1
    funext r
    cases r.fix <;> rfl
  rw [← carrying]
  generalize rs.filter (·.fix.isSome) = fixing at each
  induction each with
  | nil => exact ⟨[], rfl, .nil⟩
  | cons first _ ih =>
    obtain ⟨-, f, carries, e, edits, repairs⟩ := first
    obtain ⟨es, rest, all⟩ := ih
    refine ⟨e :: es, ?_, .cons repairs all⟩
    rw [List.filterMap_cons_some carries, List.map_cons, edits, rest]
    rfl

theorem exists_covers_iff (used : ImportBinding → Bool) (laid : ∀ d ∈ imports, LaidOut source d)
    (apart : imports.Pairwise fun d d' => d.span.stop ≤ d'.span.start) (member : d ∈ imports) (inside : b ∈ d.bindings) :
    (∃ r ∈ imports.flatMap (remarks source used), r.span.Covers b.localSpan) ↔ used b = false := by
  rw [← covered_iff (laid d member) inside]
  constructor
  · rintro ⟨r, among, covers⟩
    obtain ⟨d', member', inRemarks⟩ := List.mem_flatMap.1 among
    -- a remark on another declaration does not reach the binding
    obtain ⟨low, high⟩ := (laid d member).covers_local inside
    obtain ⟨low', high'⟩ := covers_of_mem_remarks (laid d' member') inRemarks
    obtain ⟨-, some_, -⟩ := (laid d member).names b inside
    obtain ⟨start, stop⟩ := covers
    rcases Span.eq_or_apart apart member member' with rfl | before | behind
    · exact ⟨r, inRemarks, start, stop⟩
    · omega
    · omega
  · rintro ⟨r, inRemarks, covers⟩
    exact ⟨r, List.mem_flatMap.2 ⟨d, member, inRemarks⟩, covers⟩

/-- In a script whose import declarations stand one behind the other, the diagnostics cover the bindings that nothing
refers to, and no other ones. Those with a fix are one for each declaration of which something is unused, and the fix
repairs that declaration. The fixes are apart, and all are applied at once: the text is kept but for what they replace. -/
theorem check_repairs (s : Subject) (severity : Severity) (laid : ∀ d ∈ s.script.imports, LaidOut s.source d)
    (apart : s.script.imports.Pairwise fun d d' => d.span.stop ≤ d'.span.start) :
    let ds := (check s).map (Remark.toDiagnostic rule severity)
    let fixes := ds.filterMap (·.fix)
    let kept (d : ImportDeclaration) := d.bindings.filter fun b => !decide (Unused s b)
    (∀ d ∈ s.script.imports, ∀ b ∈ d.bindings, (∃ x ∈ ds, x.span.Covers b.localSpan) ↔ Unused s b) ∧
      List.Forall₂ (fun d x => d.span.Covers x.span ∧
          ∃ f ∈ x.fix, ∃ e, f.edits = [e] ∧ Repairs s.source d (kept d) e)
        (s.script.imports.filter fun d => ∃ b ∈ d.bindings, Unused s b) (ds.filter (·.fix.isSome)) ∧
      (fixes.Pairwise fun f g => f.range.stop ≤ g.range.start) ∧
      ∃ out, Fixes.apply s.source ds = (out, fixes.length) ∧
        Edit.Replaced (fixes.flatMap (·.edits)) s.source out := by
  intro ds fixes kept
  have found : check s = s.script.imports.flatMap (remarks s.source fun b => !decide (Unused s b)) := by
    rw [← isUsed_eq]
    rfl
  have repairs := remarks_repair (fun b => !decide (Unused s b)) laid
  rw [← found] at repairs
  simp only [Bool.not_eq_false', decide_eq_true_eq] at repairs
  have fixesOf : fixes = (check s).filterMap (·.fix) := by
    simp [fixes, ds, List.filterMap_map, Function.comp_def, Remark.toDiagnostic]
  obtain ⟨es, edits, each⟩ := fixes_repair repairs
  rw [← fixesOf] at edits
  have fixesRepair := repairs_fit each
  have reported (d : ImportDeclaration) (member : d ∈ s.script.imports) (b : ImportBinding) (inside : b ∈ d.bindings) :
      (∃ x ∈ ds, x.span.Covers b.localSpan) ↔ Unused s b := by
    have covered := exists_covers_iff (fun b => !decide (Unused s b)) laid apart member inside
    rw [← found, Bool.not_eq_false', decide_eq_true_eq] at covered
    simpa [ds, Remark.toDiagnostic] using covered
  have carrying : ds.filter (·.fix.isSome) =
      ((check s).filter (·.fix.isSome)).map (Remark.toDiagnostic rule severity) := by
    rw [List.filter_map]
    rfl
  refine ⟨reported, ?_, ?_⟩
  · rw [carrying, List.forall₂_map_right_iff]
    exact repairs
  · have behind := repairs_apart (fun d member => laid d (List.mem_of_mem_filter member))
      (apart.sublist List.filter_sublist) each
    exact Fixes.apply_of_apart edits (fun e member => (fixesRepair e member).1)
      (fun e member => (fixesRepair e member).2) behind

/-- A default and a name between braces go, another one is named in the markup; and a declaration goes with its line. -/
theorem check_repairs_component :
    let text : Text :=
      "import a, \x7b b, c as d \x7d from 'm'; import x from 'n' \t\r\nimport * as ns from 'o'\nns()\n".toList
    let fixed : Text := "import \x7b c as d \x7d from 'm'; import * as ns from 'o'\nns()\n".toList
    let document : Text := "<p>d</p>\n<script>".toList ++ text ++ "</script>\n".toList
    let u : SourceUnit := ⟨⟨"/a.vue".toList⟩, text, .ts, some ⟨document, 17⟩⟩
    let s : Subject := ⟨text, u, none, .ofText .ts text⟩
    let ds := (check s).map (Remark.toDiagnostic rule .error)
    let fixes := ds.filterMap (·.fix)
    (∀ d ∈ s.script.imports, LaidOut s.source d) ∧
      (s.script.imports.Pairwise fun d d' => d.span.stop ≤ d'.span.start) ∧
      (∀ d ∈ s.script.imports, ∀ b ∈ d.bindings, (∃ x ∈ ds, x.span.Covers b.localSpan) ↔ Unused s b) ∧
      ds.map (·.span) = [⟨7, 8⟩, ⟨12, 13⟩, ⟨41, 42⟩] ∧
      List.Forall₂ (fun d x => d.span.Covers x.span ∧ ∃ f ∈ x.fix, ∃ e, f.edits = [e] ∧
          Repairs s.source d (d.bindings.filter fun b => !decide (Unused s b)) e)
        (s.script.imports.filter fun d => ∃ b ∈ d.bindings, Unused s b) (ds.filter (·.fix.isSome)) ∧
      (fixes.Pairwise fun f g => f.range.stop ≤ g.range.start) ∧ Fixes.apply s.source ds = (fixed, 2) ∧
      Edit.Replaced (fixes.flatMap (·.edits)) s.source fixed := by
  intro text fixed document u s ds fixes
  have laid : ∀ d ∈ s.script.imports, LaidOut s.source d := by decide +kernel
  have apart : s.script.imports.Pairwise fun d d' => d.span.stop ≤ d'.span.start := by decide +kernel
  have spans : ds.map (·.span) = [⟨7, 8⟩, ⟨12, 13⟩, ⟨41, 42⟩] := by decide +kernel
  have outcome : Fixes.apply s.source ds = (fixed, 2) := by decide +kernel
  obtain ⟨reported, repairs, behind, out, applied, replaced⟩ := check_repairs s .error laid apart
  obtain rfl : out = fixed := (Prod.mk.inj (applied.symm.trans outcome)).1
  exact ⟨laid, apart, reported, spans, repairs, behind, outcome, replaced⟩

end UnusedImports

/-! ## Braces in comments -/

/-- A text that can stand for a unit's script: it parses, and the imports that the script or the markup around
it uses are still made in it. -/
structure SourceUnit.Survives (u : SourceUnit) (t : Text) : Prop where
  parses : (TypeScript.Module.ofText u.kind t).faults = []
  imports : ∀ d ∈ (TypeScript.Module.ofText u.kind u.text).imports, ∀ b ∈ d.bindings,
    UnusedImports.isUsed (TypeScript.Module.ofText u.kind u.text).outline.uses (UnusedImports.markup u) b = true →
    ∃ d' ∈ (TypeScript.Module.ofText u.kind t).imports, d'.source.specifier = d.source.specifier ∧
      ∃ b' ∈ d'.bindings, b'.localName = b.localName ∧ b'.wanted.map (·.name) = b.wanted.map (·.name)

/-- A brace in a comment breaks a script by a fix, which is reported then, or takes an import away that is used,
which is not. -/
theorem Linter.lintUnit_not_survives :
    let l : Linter := { rules := [UnusedImports.rule] }
    let broken : SourceUnit :=
      ⟨⟨"/a.ts".toList⟩, "import \x7b b, a /* \x7d */ \x7d from 'm'\nb()\n".toList, .ts, none⟩
    let lost : SourceUnit :=
      ⟨⟨"/a.ts".toList⟩,
        "import \x7b /* \x7b */ a, b \x7d from 'm'\nimport \x7b/* */ c \x7d from 'q'\na(c)\n".toList, .ts, none⟩
    (broken.Survives broken.text ∧ ∃ t, (l.lintUnit none broken).written = some t ∧ ¬ broken.Survives t) ∧
      lost.Survives lost.text ∧ ∃ t, (l.lintUnit none lost).written = some t ∧ ¬ lost.Survives t ∧
        (l.lintUnit none lost).result.failures = [] := by
  intro l broken lost
  have brokenNow : (l.lintUnit none broken).written =
      some "import \x7b b \x7d */ \x7d from 'm'\nb()\n".toList := by decide +kernel
  have lostNow : (l.lintUnit none lost).written =
        some "import \x7b /* \x7b a \x7d from 'm'\nimport \x7b/* */ c \x7d from 'q'\na(c)\n".toList ∧
      (l.lintUnit none lost).result.failures = [] := by decide +kernel
  refine ⟨⟨⟨?_, ?_⟩, _, brokenNow, fun h => ?_⟩, ⟨?_, ?_⟩, _, lostNow.1, fun h => ?_, lostNow.2⟩
  · decide +kernel
  · decide +kernel
  · exact absurd h.parses (by decide +kernel)
  · decide +kernel
  · decide +kernel
  · exact absurd h.imports (by decide +kernel)

end ComponentLint
