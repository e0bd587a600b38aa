import ComponentLint.Lint.BlankLines
import ComponentLint.Proofs.Lint.Sequence
import ComponentLint.Proofs.Text.Lines
import ComponentLint.TypeScript.Items
import Mathlib.Data.List.SplitBy

/-! Runs of blank lines. The lines of a text fall into maximal runs, of blank lines and of others in turn. Each run of
more than one blank line is reported once, from its second line to its end, and the fixes together leave the first line
of each blank run and all other lines as they are. -/
namespace ComponentLint.BlankLines

/-! ## Lines in their places -/

theorem placed_lines (offset : Nat) (ls : List Text) : (placed offset ls).map (·.2) = ls := by
  induction ls generalizing offset with
  | nil => rfl
  | cons line ls ih => simp [placed, ih]

theorem placed_split {offset : Nat} {ls : List Text} {a b : List (Nat × Text)} (h : a ++ b = placed offset ls) :
    ∃ la lb, ls = la ++ lb ∧ a = placed offset la ∧ b = placed (offset + Text.byteSize la.flatten) lb := by
  induction a generalizing offset ls with
  | nil => exact ⟨[], ls, rfl, rfl, by simpa using h⟩
  | cons first a ih =>
    cases ls with
    | nil => simp [placed] at h
    | cons line ls =>
      obtain ⟨rfl, rest⟩ := List.cons.inj h
      obtain ⟨la, lb, rfl, rfl, rfl⟩ := ih rest
      exact ⟨line :: la, lb, rfl, rfl, by simp [Nat.add_assoc]⟩

theorem placed_length (offset : Nat) (ls : List Text) : (placed offset ls).length = ls.length := by
  induction ls generalizing offset with
  | nil => rfl
  | cons line ls ih => simp [placed, ih]

/-! ## Runs -/

/-- Lists without an end in between that are blank throughout and not at all in turn. -/
structure Alternate {α : Type} (blank : α → Bool) (rs : List (List α)) : Prop where
  filled : [] ∉ rs
  pure : ∀ r ∈ rs, ∀ x ∈ r, blank x = r.all blank
  turns : rs.IsChain fun a b => a.all blank ≠ b.all blank

theorem Alternate.tail {α : Type} {blank : α → Bool} {r : List α} {rs : List (List α)}
    (h : Alternate blank (r :: rs)) : Alternate blank rs where
  filled empty := h.filled (List.mem_cons_of_mem r empty)
  pure other member := h.pure other (List.mem_cons_of_mem r member)
  turns := h.turns.tail

theorem all_of_chain {α : Type} {blank : α → Bool} {r : List α} (chain : r.IsChain fun x y => blank x = blank y) :
    ∀ x ∈ r, blank x = r.all blank := by
  have same := List.isChain_eq_iff_eq_replicate.1 ((List.isChain_map blank).2 chain)
  cases r with
  | nil => simp
  | cons first r =>
    have each : ∀ x ∈ first :: r, blank x = blank first := by
      intro x member
      have inside := List.mem_map_of_mem (f := blank) member
      rw [same (blank first) (by simp)] at inside
      exact List.eq_of_mem_replicate inside
    have all : (first :: r).all blank = blank first := by
      cases kind : blank first with
      | true => simpa [kind] using fun x member => each x (List.mem_cons_of_mem first member)
      | false => simp [kind]
    rw [all]
    exact each

theorem alternate_splitBy {α : Type} (blank : α → Bool) (xs : List α) :
    Alternate blank (xs.splitBy fun a b => blank a == blank b) := by
  have pure : ∀ r ∈ xs.splitBy fun a b => blank a == blank b, ∀ x ∈ r, blank x = r.all blank := by
    intro r member
    apply all_of_chain
    simpa using List.isChain_of_mem_splitBy member
  refine ⟨List.nil_notMem_splitBy _ _, pure, ?_⟩
  apply (List.isChain_getLast_head_splitBy _ xs).imp_of_mem_imp
  rintro a b inA inB ⟨someA, someB, other⟩
  rw [← pure a inA _ (List.getLast_mem someA), ← pure b inB _ (List.head_mem someB)]
  simpa using other

variable (templates : List Span)

/-- Whether a line at an offset is blank. -/
def isBlankAt (line : Nat × Text) : Bool := isBlankLine templates line.1 line.2

/-- The maximal runs of lines that are blank, and of those that are not. -/
def runs (text : Text) : List (List (Nat × Text)) :=
  (placed 0 text.lines).splitBy fun a b => isBlankAt templates a == isBlankAt templates b

def isBlankRun (run : List (Nat × Text)) : Bool := run.all (isBlankAt templates)

/-- Two or more blank lines. -/
def isLong (run : List (Nat × Text)) : Bool := isBlankRun templates run && 2 ≤ run.length

/-- What stays of a run: the first of blank lines, and all of others. -/
def left (run : List (Nat × Text)) : List (Nat × Text) := if isBlankRun templates run then run.take 1 else run

/-- The text with the first line only of each run of blank lines. -/
def collapsed (text : Text) : Text := (((runs templates text).flatMap (left templates)).map (·.2)).flatten

/-- From the start of the second line of a run to the end of the last. -/
def excess : List (Nat × Text) → Span
  | _ :: second :: rest => ⟨second.1, second.1 + Text.byteSize ((second :: rest).map (·.2)).flatten⟩
  | _ => ⟨0, 0⟩

def remarkAt (span : Span) : Remark :=
  ⟨"Consecutive blank lines are forbidden", span, none, some (.single "Remove extra blank lines" span [])⟩

variable {templates : List Span}

/-! ## What is reported -/

/-- The blank lines of a run are kept in mind, the last one first. -/
theorem remarks_blank {la lb : List Text} {pending : List Nat} {offset : Nat}
    (blank : isBlankRun templates (placed offset la) = true) :
    remarks templates pending offset (la ++ lb) =
      remarks templates (((placed offset la).map (·.1)).reverse ++ pending) (offset + Text.byteSize la.flatten) lb := by
  induction la generalizing pending offset with
  | nil => simp [placed]
  | cons line la ih =>
    obtain ⟨here, more⟩ : isBlankLine templates offset line = true ∧
        isBlankRun templates (placed (offset + line.byteSize) la) = true := by
      simpa [isBlankRun, placed, isBlankAt] using blank
    rw [List.cons_append, remarks, if_pos here, ih more]
    simp [placed, Nat.add_assoc]

/-- Lines that are not blank say what there is to say of the blank ones before them. -/
theorem remarks_sharp {la lb : List Text} {pending : List Nat} {offset : Nat} (some_ : la ≠ [])
    (sharp : ∀ x ∈ placed offset la, isBlankAt templates x = false) :
    remarks templates pending offset (la ++ lb) =
      remark pending offset ++ remarks templates [] (offset + Text.byteSize la.flatten) lb := by
  induction la generalizing pending offset with
  | nil => contradiction
  | cons line la ih =>
    obtain ⟨here, more⟩ : isBlankLine templates offset line = false ∧
        ∀ x ∈ placed (offset + line.byteSize) la, isBlankAt templates x = false := by
      simpa [placed, isBlankAt] using sharp
    rw [List.cons_append, remarks, here]
    simp only [Bool.false_eq_true, if_false]
    cases la with
    | nil => simp
    | cons next la =>
      rw [ih (by simp) more]
      simp [remark, Nat.add_assoc]

/-- Of a run of blank lines the second line and those behind it are reported, if there are any. -/
theorem remark_placed (offset : Nat) (la : List Text) :
    remark ((placed offset la).map (·.1)).reverse (offset + Text.byteSize la.flatten) =
      if 2 ≤ la.length then [remarkAt (excess (placed offset la))] else [] := by
  cases la with
  | nil => rfl
  | cons first la =>
    cases la with
    | nil => simp [placed, remark]
    | cons second la => simp [placed, remark, remarkAt, excess, placed_lines, Nat.add_assoc]

theorem remarks_alternate {rs : List (List (Nat × Text))} (alternate : Alternate (isBlankAt templates) rs)
    {ls : List Text} {pending : List Nat} {offset : Nat} (lines_ : rs.flatten = placed offset ls)
    (ready : pending = [] ∨ ∀ r ∈ rs.head?, isBlankRun templates r = false) :
    remarks templates pending offset ls =
      remark pending offset ++ (rs.filter (isLong templates)).map fun r => remarkAt (excess r) := by
  induction rs generalizing ls pending offset with
  | nil =>
    cases ls with
    | nil => simp [remarks]
    | cons line ls => simp [placed] at lines_
  | cons r rs ih =>
    obtain ⟨la, lb, rfl, rfl, rest⟩ := placed_split lines_
    have some_ : la ≠ [] := by
      rintro rfl
      exact alternate.filled (by simp [placed])
    cases kind : isBlankRun templates (placed offset la) with
    | true =>
      obtain rfl : pending = [] := ready.resolve_right fun sharp => by simp [kind] at sharp
      have next : ∀ r ∈ rs.head?, isBlankRun templates r = false := by
        intro r member
        have other := alternate.turns.rel_head? member
        change isBlankRun templates (placed offset la) ≠ isBlankRun templates r at other
        rw [kind] at other
        simpa using other.symm
      rw [remarks_blank kind, List.append_nil, ih alternate.tail rest (.inr next), remark_placed, List.filter_cons, isLong, kind,
        placed_length]
      by_cases long : 2 ≤ la.length
      · simp [long, remark]
      · simp [long, remark]
    | false =>
      have sharp : ∀ x ∈ placed offset la, isBlankAt templates x = false := by
        intro x member
        rw [alternate.pure _ (by simp) x member]
        exact kind
      rw [remarks_sharp some_ sharp, ih alternate.tail rest (.inl rfl)]
      simp [isLong, kind, remark]

/-- One remark for each maximal run of two or more blank lines. -/
theorem remarks_runs (templates : List Span) (text : Text) :
    remarks templates [] 0 text.lines = ((runs templates text).filter (isLong templates)).map fun r => remarkAt (excess r) :=
  remarks_alternate (alternate_splitBy _ _) (List.flatten_splitBy ..) (.inl rfl)

/-! ## What the fixes make of it -/

/-- A run that is not long stays whole. -/
theorem left_of_short {r : List (Nat × Text)} (short : isLong templates r = false) : left templates r = r := by
  cases kind : isBlankRun templates r with
  | true =>
    have few : r.length ≤ 1 := by
      have less : ¬2 ≤ r.length := by simpa [isLong, kind] using short
      omega
    rw [left, kind, if_pos rfl, List.take_of_length_le few]
  | false => simp [left, kind]

theorem replaced_runs {rs : List (List (Nat × Text))} {ls : List Text} (lines_ : rs.flatten = placed 0 ls) :
    Edit.Replaced ((rs.filter (isLong templates)).map fun r => ⟨excess r, []⟩) ls.flatten
      ((rs.flatMap (left templates)).map (·.2)).flatten := by
  induction rs using List.reverseRecOn generalizing ls with
  | nil =>
    cases ls with
    | nil => exact .none []
    | cons line ls => simp [placed] at lines_
  | append_singleton rs r ih =>
    rw [List.flatten_append, List.flatten_singleton] at lines_
    obtain ⟨la, lb, rfl, front, rfl⟩ := placed_split lines_
    have before := ih front
    rw [Nat.zero_add]
    cases kind : isLong templates (placed (Text.byteSize la.flatten) lb) with
    | false =>
      have whole := before.append lb.flatten
      simpa [kind, left_of_short kind, placed_lines] using whole
    | true =>
      obtain ⟨blank, two⟩ : isBlankRun templates (placed (Text.byteSize la.flatten) lb) = true ∧ 2 ≤ lb.length := by
        simpa [isLong, placed_length] using kind
      obtain ⟨first, second, rest, rfl⟩ : ∃ first second rest, lb = first :: second :: rest := by
        match lb, two with
        | first :: second :: rest, _ => exact ⟨first, second, rest, rfl⟩
      -- the first line of the run is kept, and the rest of it is cut out
      have cut := (before.append first).more (e := ⟨excess (placed (Text.byteSize la.flatten) (first :: second :: rest)), []⟩)
        (second :: rest).flatten [] (by simp [placed, excess]) (by simp [placed, excess, placed_lines, Nat.add_assoc])
      have stays : left templates (placed (Text.byteSize la.flatten) (first :: second :: rest)) =
          [(Text.byteSize la.flatten, first)] := by
        rw [left, blank, if_pos rfl]
        rfl
      simpa [kind, stays] using cut

/-! ## Once more -/

/-- Where no two blank lines follow each other there is nothing to say. -/
theorem remarks_of_chain {ls : List Text} (chain : ls.IsChain fun a b => a.isAllBlank = true → b.isAllBlank = false)
    {pending : List Nat} {offset : Nat} (few : pending.length ≤ 1)
    (ready : pending = [] ∨ ∀ line ∈ ls.head?, line.isAllBlank = false) : remarks [] pending offset ls = [] := by
  have nothing : remark pending offset = [] := by
    cases pending with
    | nil => rfl
    | cons first more =>
      obtain rfl : more = [] := by simpa using few
      rfl
  induction ls generalizing pending offset with
  | nil => rw [remarks, nothing]
  | cons line ls ih =>
    have next : line.isAllBlank = true → ∀ other ∈ ls.head?, other.isAllBlank = false :=
      fun blank other member => chain.rel_head? member blank
    cases blank : line.isAllBlank with
    | true =>
      obtain rfl : pending = [] := ready.resolve_right fun sharp => by simp [blank] at sharp
      have here : isBlankLine [] offset line = true := by simp [isBlankLine, isInside, blank]
      rw [remarks, if_pos here]
      exact ih chain.tail (by simp) (.inr (next blank)) rfl
    | false =>
      have here : isBlankLine [] offset line = false := by simp [isBlankLine, blank]
      rw [remarks, here, nothing]
      exact ih chain.tail (by simp) (.inl rfl) rfl

theorem left_sublist (r : List (Nat × Text)) : (left templates r).Sublist r := by
  rw [left]
  split_ifs
  · exact List.take_sublist 1 r
  · exact .refl r

theorem flatMap_left_sublist (rs : List (List (Nat × Text))) : (rs.flatMap (left templates)).Sublist rs.flatten := by
  induction rs with
  | nil => exact .refl []
  | cons r rs ih => exact (left_sublist r).append ih

/-- A run begins with a line that stays. -/
theorem left_head {r : List (Nat × Text)} (some_ : r ≠ []) : (left templates r).head? = r.head? := by
  cases r with
  | nil => contradiction
  | cons first r =>
    rw [left]
    split_ifs <;> rfl

/-- In what is left no two blank lines follow each other. -/
theorem chain_left {rs : List (List (Nat × Text))} (alternate : Alternate (isBlankAt templates) rs) :
    (rs.flatMap (left templates)).IsChain fun a b => isBlankAt templates a = true → isBlankAt templates b = false := by
  induction rs with
  | nil => exact .nil
  | cons r rs ih =>
    rw [List.flatMap_cons]
    refine List.isChain_append.2 ⟨?_, ih alternate.tail, fun x last y first blank => ?_⟩
    · cases kind : isBlankRun templates r with
      | true =>
        rw [left, if_pos kind]
        cases r with
        | nil => exact .nil
        | cons first r => exact .singleton first
      | false =>
        have sharp : ∀ x ∈ r, isBlankAt templates x = false := fun x member => by
          rw [alternate.pure r (by simp) x member]
          exact kind
        rw [left_of_short (by simp [isLong, kind])]
        apply List.Pairwise.isChain
        exact List.pairwise_of_forall_mem_list fun a inA b inB _ => sharp b inB
    · -- the first line behind a blank run is that of the next run
      have inR : x ∈ r := (left_sublist r).subset (List.mem_of_mem_getLast? last)
      cases rs with
      | nil => simp at first
      | cons next rs =>
        have filled : next ≠ [] := fun empty => alternate.filled (by simp [empty])
        have head : y ∈ next.head? := by
          rw [List.flatMap_cons, List.head?_append, left_head filled] at first
          cases next with
          | nil => contradiction
          | cons z next => simpa using first
        have other := alternate.turns.rel_head? (y := next) (by simp)
        rw [← alternate.pure r (by simp) x inR, blank, ← alternate.pure next (by simp) y (List.mem_of_mem_head? head)] at other
        simpa using other.symm

/-- What is left of the lines of a text is split into them again. -/
theorem lines_collapsed (templates : List Span) (text : Text) :
    (collapsed templates text).lines = ((runs templates text).flatMap (left templates)).map (·.2) := by
  apply Text.AreLines.lines_flatten
  have kept : ((runs templates text).flatMap (left templates)).Sublist (runs templates text).flatten :=
    flatMap_left_sublist _
  have among := kept.map (·.2)
  rw [runs, List.flatten_splitBy, placed_lines] at among
  exact (Text.lines_are text).sublist among

theorem remarks_collapsed (text : Text) : remarks [] [] 0 (collapsed [] text).lines = [] := by
  apply remarks_of_chain _ (by simp) (.inl rfl)
  rw [lines_collapsed, List.isChain_map]
  exact (chain_left (alternate_splitBy _ _)).imp fun a b next blank => by
    simpa [isBlankAt, isBlankLine, isInside] using next (by simpa [isBlankAt, isBlankLine, isInside] using blank)

/-- A long run has something in excess. -/
theorem excess_some {text : Text} {r : List (Nat × Text)} (member : r ∈ runs templates text)
    (long : isLong templates r = true) : (excess r).start < (excess r).stop := by
  have two : 2 ≤ r.length := by
    simp only [isLong, Bool.and_eq_true, decide_eq_true_eq] at long
    exact long.2
  match r, two with
  | first :: second :: rest, _ =>
    have inside : second.2 ∈ text.lines := by
      rw [← placed_lines 0 text.lines]
      apply List.mem_map_of_mem
      rw [← List.flatten_splitBy (fun a b => isBlankAt templates a == isBlankAt templates b) (placed 0 text.lines)]
      exact List.mem_flatten.2 ⟨_, member, by simp⟩
    have some_ := ((Text.lines_are text).each _ inside).1
    have positive : Text.byteSize second.2 ≠ 0 := fun empty => some_ (Text.byteSize_eq_zero_iff.1 empty)
    simp only [excess, List.map_cons, List.flatten_cons, Text.byteSize_append]
    omega

/-- Blank are the lines of white space that do not start inside a template, whatever spans the templates have. Each
maximal run of two or more of them is reported once, from its second line to its end. All fixes are applied at once, and
they leave the lines that are not blank and the first of each run. Without templates, nothing is reported of that. -/
theorem check_collapses (s : Subject) (severity : Severity) :
    let templates := s.script.outline.templates
    let ds := (check s).map (Remark.toDiagnostic rule severity)
    ds.map (·.span) = ((runs templates s.source).filter (isLong templates)).map excess ∧
      Fixes.apply s.source ds = (collapsed templates s.source, ds.length) ∧
      (templates = [] → ∀ s' : Subject, s'.source = collapsed [] s.source → s'.script.outline.templates = [] →
        check s' = []) := by
  intro templates ds
  have found : check s = ((runs templates s.source).filter (isLong templates)).map fun r => remarkAt (excess r) :=
    remarks_runs templates s.source
  have fixes : Fixes.carried ds = ((runs templates s.source).filter (isLong templates)).map fun r =>
      .single "Remove extra blank lines" (excess r) [] := by
    rw [Fixes.carried, List.filter_eq_self.2]
    · simp [ds, found, Remark.toDiagnostic, remarkAt, List.filterMap_map, Function.comp_def]
    · intro f member
      simp only [ds, found, List.map_map, List.filterMap_map, List.mem_filterMap] at member
      obtain ⟨r, -, carries⟩ := member
      obtain rfl := Option.some.inj carries
      rfl
  have edits : (Fixes.carried ds).flatMap (·.edits) =
      ((runs templates s.source).filter (isLong templates)).map fun r => ⟨excess r, []⟩ := by
    rw [fixes, List.flatMap_map, List.map_eq_flatMap]
    rfl
  refine ⟨?_, ?_, fun none_ s' source plain => ?_⟩
  · simp [ds, found, Remark.toDiagnostic, remarkAt]
  · have whole : (runs templates s.source).flatten = placed 0 s.source.lines := List.flatten_splitBy _ _
    have replaced : Edit.Replaced (((runs templates s.source).filter (isLong templates)).map fun r => ⟨excess r, []⟩)
        s.source.lines.flatten (collapsed templates s.source) := replaced_runs whole
    rw [Text.flatten_lines] at replaced
    have made : Fixes.apply s.source ds = (collapsed templates s.source, (Fixes.carried ds).length) := by
      apply Fixes.apply_of_replaced
      · intro f member
        rw [fixes] at member
        obtain ⟨r, -, rfl⟩ := List.mem_map.1 member
        exact ⟨_, rfl⟩
      · intro e member
        rw [edits] at member
        obtain ⟨r, inside, rfl⟩ := List.mem_map.1 member
        obtain ⟨isRun, long⟩ := List.mem_filter.1 inside
        exact excess_some isRun long
      · rw [edits]
        exact replaced
    rw [made, fixes]
    simp [ds, found]
  · change remarks s'.script.outline.templates [] 0 s'.source.lines = []
    rw [plain, source]
    exact remarks_collapsed s.source

theorem check_collapses_script :
    let text : Text := "\n\na()\r\n\r\n \u2003\r\nb()\n\n  ".toList
    let fixed : Text := "\na()\r\n\r\nb()\n\n".toList
    let u : SourceUnit := ⟨⟨"/a.ts".toList⟩, text, .ts, none⟩
    let s : Subject := ⟨text, u, none, .ofText .ts text⟩
    let s' : Subject := ⟨fixed, u, none, .ofText .ts fixed⟩
    let ds := (check s).map (Remark.toDiagnostic rule .warning)
    s.script.outline.templates = [] ∧ s'.source = collapsed [] s.source ∧ s'.script.outline.templates = [] ∧
      ds.map (·.span) = [⟨1, 2⟩, ⟨9, 15⟩, ⟨20, 22⟩] ∧ Fixes.apply s.source ds = (fixed, 3) ∧ check s' = [] := by
  intro text fixed u s s' ds
  have plain : s.script.outline.templates = [] := by decide +kernel
  have plain' : s'.script.outline.templates = [] := by decide +kernel
  have source : s'.source = collapsed [] s.source := by decide +kernel
  obtain ⟨spans, applied, again⟩ := check_collapses s .warning
  have three : ((runs [] s.source).filter (isLong [])).map excess = [⟨1, 2⟩, ⟨9, 15⟩, ⟨20, 22⟩] := by decide +kernel
  rw [plain] at spans applied
  have count : ds.length = 3 := by
    rw [← List.length_map (fun d : Diagnostic => d.span), spans, three]
    rfl
  refine ⟨plain, source, plain', spans.trans three, ?_, again plain s' source plain'⟩
  rw [applied, ← source, count]

example : collapsed [⟨2, 7⟩] "a=`\n\n\n`\n\n\nb".toList = "a=`\n\n\n`\n\nb".toList := by decide +kernel

end ComponentLint.BlankLines
