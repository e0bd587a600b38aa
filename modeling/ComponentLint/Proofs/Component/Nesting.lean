import ComponentLint.Proofs.Component.Locality

/-! Templates inside templates. The reader of template content counts the templates that are open; a nest is what the
count comes to. Content is cut exactly where a text falls into a nest and a closing tag behind it, and no text falls
so in two ways. -/
namespace ComponentLint.Component

/-! ## The grammar -/

/-- A closing tag of a template. -/
def IsTemplateEnd (close : Text) : Prop := equalsIgnoringCase close (closingTag templateName) = true

/-- An opening tag of a template within another one: behind the name a blank or the bracket, and no bracket before the
end. A slash before the bracket closes the template at once. -/
def IsTemplateTag (closes : Bool) (tag : Text) : Prop :=
  ∃ name inside, tag = '<' :: (name ++ (inside ++ ['>'])) ∧ equalsIgnoringCase name templateName = true ∧
    (∀ c ∈ inside.head?, isTagBlank c = true) ∧ '>' ∉ inside ∧ (inside.getLast? = some '/' ↔ closes = true)

/-- The text begins with a closing tag of a template. -/
def EndsTemplate (t : Text) : Prop := ∃ close rest, t = close ++ rest ∧ IsTemplateEnd close

/-- The text begins like an opening tag of a template, whether or not that tag comes to an end. -/
def BeginsTemplate (t : Text) : Prop :=
  ∃ name c rest, t = '<' :: (name ++ c :: rest) ∧ equalsIgnoringCase name templateName = true ∧
    (c = '>' ∨ isTagBlank c = true)

/-- Template content in which every template that is opened is closed. -/
inductive Nest : Text → Prop where
  | empty : Nest []
  | char {c : Char} {t : Text} (other : c ≠ '<') (rest : Nest t) : Nest (c :: t)
  -- the nest alone decides: what stands behind it begins with a bracket, and completes no tag
  | bracket {t : Text} (noEnd : ¬EndsTemplate ('<' :: t)) (noTag : ¬BeginsTemplate ('<' :: t)) (rest : Nest t) :
      Nest ('<' :: t)
  | selfClosing {tag t : Text} (isTag : IsTemplateTag true tag) (rest : Nest t) : Nest (tag ++ t)
  | nested {tag inner close t : Text} (isTag : IsTemplateTag false tag) (inside : Nest inner)
      (ends : IsTemplateEnd close) (rest : Nest t) : Nest (tag ++ (inner ++ (close ++ t)))

/-- As many nests, each but the last with a closing tag behind it, as there are templates open and one more. -/
def Nests : Nat → Text → Prop
  | 0, t => Nest t
  | depth + 1, t =>
    ∃ inner close rest, t = inner ++ (close ++ rest) ∧ Nest inner ∧ IsTemplateEnd close ∧ Nests depth rest

/-! ## Tags -/

/-- No letter becomes a mark when its case is left aside. -/
theorem eq_bracket_of_toLower {c : Char} (h : c.toLower = '<') : c = '<' := by
  by_cases upper : c.val ≥ 'A'.val ∧ c.val ≤ 'Z'.val
  · have lowered : c.toLower.val = c.val + 32 := congrArg Char.val (dif_pos upper)
    have value : c.val + 32 = 60 := by rw [← lowered, h]; rfl
    have low : 65 ≤ c.val := upper.1
    have high : c.val ≤ 90 := upper.2
    grind
  · have kept : c.toLower = c := dif_neg upper
    rwa [kept] at h

/-- What a text has, a text that equals it up to case has in lower case. -/
theorem absent_of_equalsIgnoringCase {a word : Text} (equal : equalsIgnoringCase a word = true) {c : Char}
    (absent : c.toLower ∉ word.map Char.toLower) : c ∉ a := by
  intro member
  have same : a.map Char.toLower = word.map Char.toLower := by simpa [equalsIgnoringCase] using equal
  exact absent (same ▸ List.mem_map_of_mem member)

theorem equalsIgnoringCase_cons {c d : Char} {a b : Text} :
    equalsIgnoringCase (c :: a) (d :: b) = true ↔ c.toLower = d.toLower ∧ equalsIgnoringCase a b = true := by
  simp [equalsIgnoringCase]

theorem IsTemplateEnd.split {close : Text} (h : IsTemplateEnd close) :
    ∃ inside, close = '<' :: inside ∧ '<' ∉ inside := by
  have word : closingTag templateName = '<' :: "/template>".toList := rfl
  rw [IsTemplateEnd, word] at h
  cases close with
  | nil => exact absurd (equalsIgnoringCase_length h) (by decide)
  | cons c inside =>
    obtain ⟨first, others⟩ := equalsIgnoringCase_cons.1 h
    obtain rfl := eq_bracket_of_toLower first
    exact ⟨inside, rfl, absent_of_equalsIgnoringCase others (by decide)⟩

theorem endsTemplate_iff {t : Text} :
    EndsTemplate t ↔ startsWithIgnoringCase (closingTag templateName) t = true := by
  rw [startsWithIgnoringCase_iff]
  rfl

theorem beginsTemplate_iff {t : Text} : BeginsTemplate t ↔ opensTemplate t = true := by
  have next (a : Text) (long : a.length = templateName.length + 1) (rest : Text) :
      (a ++ rest).drop (templateName.length + 1) = rest := by rw [← long, List.drop_left]
  rw [opensTemplate, Bool.and_eq_true, startsWithIgnoringCase_iff, Option.any_eq_true]
  constructor
  · rintro ⟨name, c, rest, rfl, named, stop⟩
    have long : ('<' :: name).length = templateName.length + 1 := by
      rw [List.length_cons, equalsIgnoringCase_length named]
    refine ⟨⟨'<' :: name, c :: rest, rfl, equalsIgnoringCase_cons.2 ⟨rfl, named⟩⟩, c, ?_, by simpa using stop⟩
    rw [← List.cons_append, next _ long]
    rfl
  · rintro ⟨⟨a, rest, rfl, equal⟩, c, found, stop⟩
    have long : a.length = templateName.length + 1 := equalsIgnoringCase_length equal
    rw [next a long] at found
    obtain ⟨after, rfl⟩ : ∃ after, rest = c :: after := by
      cases rest with
      | nil => simp at found
      | cons d rest => exact ⟨rest, by simpa using found⟩
    cases a with
    | nil => simp at long
    | cons b name =>
      obtain ⟨first, named⟩ := equalsIgnoringCase_cons.1 equal
      obtain rfl := eq_bracket_of_toLower first
      exact ⟨name, c, after, rfl, named, by simpa using stop⟩

/-- A tag that begins does not reach past the next opening bracket. -/
theorem prefix_of_bracket {front rest t w : Text} (pure : '<' ∉ front) (split : front ++ rest = t ++ '<' :: w) :
    ∃ more, t = front ++ more := by
  rcases List.append_eq_append_iff.1 split with ⟨more, rfl, -⟩ | ⟨more, rfl, rest_⟩
  · exact ⟨more, rfl⟩
  · cases more with
    | nil => exact ⟨[], by simp⟩
    | cons c more =>
      obtain ⟨rfl, -⟩ := List.cons.inj rest_
      simp at pure

theorem EndsTemplate.of_bracket {t w : Text} (h : EndsTemplate ('<' :: (t ++ '<' :: w))) : EndsTemplate ('<' :: t) := by
  obtain ⟨close, rest, split, ends⟩ := h
  obtain ⟨inside, rfl, pure⟩ := ends.split
  obtain ⟨more, rfl⟩ := prefix_of_bracket pure (List.cons.inj split).2.symm
  exact ⟨'<' :: inside, more, rfl, ends⟩

theorem BeginsTemplate.of_bracket {t w : Text} (h : BeginsTemplate ('<' :: (t ++ '<' :: w))) :
    BeginsTemplate ('<' :: t) := by
  obtain ⟨name, c, rest, split, named, stop⟩ := h
  have pure : '<' ∉ name ++ [c] := by
    have other : c ≠ '<' := by
      rintro rfl
      rcases stop with stop | stop <;> simp [isTagBlank] at stop
    simp [absent_of_equalsIgnoringCase named (by decide : ('<').toLower ∉ templateName.map Char.toLower), other.symm]
  have regroup : (name ++ [c]) ++ rest = t ++ '<' :: w := by simpa using (List.cons.inj split).2.symm
  obtain ⟨more, rfl⟩ := prefix_of_bracket pure regroup
  exact ⟨name, c, more, by simp, named, stop⟩

/-! ## Reading -/

/-- What a cut finds when something is put in front of the text. -/
def inFront (front : Text) (cut : Option (Text × Text)) : Option (Text × Text) :=
  cut.map fun (content, from_) => (front ++ content, from_)

@[simp] theorem inFront_nil (cut : Option (Text × Text)) : inFront [] cut = cut := by simp [inFront]

@[simp] theorem inFront_inFront (a b : Text) (cut : Option (Text × Text)) :
    inFront a (inFront b cut) = inFront (a ++ b) cut := by
  cases cut <;> simp [inFront]

theorem inFront_eq_some_iff {front content from_ : Text} {cut : Option (Text × Text)} :
    inFront front cut = some (content, from_) ↔ ∃ inner, cut = some (inner, from_) ∧ content = front ++ inner := by
  constructor
  · intro h
    obtain ⟨⟨inner, from_'⟩, rfl, same⟩ := Option.map_eq_some_iff.1 h
    obtain ⟨rfl, rfl⟩ := Prod.mk.inj same
    exact ⟨inner, rfl, rfl⟩
  · rintro ⟨inner, rfl, rfl⟩
    rfl

variable {depth : Nat}

theorem templateContent?_char {c : Char} (other : c ≠ '<') (t : Text) :
    templateContent? depth none (c :: t) = inFront [c] (templateContent? depth none t) := by
  have noEnd : startsWithIgnoringCase (closingTag templateName) (c :: t) = false := by
    rw [← Bool.not_eq_true, ← endsTemplate_iff]
    rintro ⟨close, rest, split, ends⟩
    obtain ⟨inside, rfl, -⟩ := ends.split
    exact other (List.cons.inj split).1
  have noTag : opensTemplate (c :: t) = false := by
    rw [← Bool.not_eq_true, ← beginsTemplate_iff]
    rintro ⟨name, d, rest, split, -, -⟩
    exact other (List.cons.inj split).1
  simp [templateContent?, noEnd, noTag, inFront]

theorem templateContent?_bracket {t : Text} (noEnd : ¬EndsTemplate ('<' :: t)) (noTag : ¬BeginsTemplate ('<' :: t)) :
    templateContent? depth none ('<' :: t) = inFront ['<'] (templateContent? depth none t) := by
  rw [endsTemplate_iff, Bool.not_eq_true] at noEnd
  rw [beginsTemplate_iff, Bool.not_eq_true] at noTag
  simp [templateContent?, noEnd, noTag, inFront]

theorem templateContent?_chars {a : Text} (pure : '<' ∉ a) (t : Text) :
    templateContent? depth none (a ++ t) = inFront a (templateContent? depth none t) := by
  induction a with
  | nil => simp
  | cons c a ih =>
    obtain ⟨other, further⟩ : '<' ≠ c ∧ '<' ∉ a := by simpa using pure
    rw [List.cons_append, templateContent?_char other.symm, ih further, inFront_inFront]
    rfl

theorem IsTemplateEnd.starts {close : Text} (ends : IsTemplateEnd close) (t : Text) :
    startsWithIgnoringCase (closingTag templateName) (close ++ t) = true :=
  endsTemplate_iff.1 ⟨close, t, rfl, ends⟩

/-- A closing tag ends the content, if no template inside is open. -/
theorem templateContent?_end {close : Text} (ends : IsTemplateEnd close) (t : Text) :
    templateContent? 0 none (close ++ t) = some ([], close ++ t) := by
  have isEnd := ends.starts t
  obtain ⟨inside, rfl, -⟩ := ends.split
  rw [List.cons_append] at isEnd ⊢
  simp [templateContent?, isEnd]

/-- A closing tag ends one of the templates inside the content. -/
theorem templateContent?_endInside {close : Text} (ends : IsTemplateEnd close) (t : Text) :
    templateContent? (depth + 1) none (close ++ t) = inFront close (templateContent? depth none t) := by
  have isEnd := ends.starts t
  obtain ⟨inside, rfl, pure⟩ := ends.split
  rw [List.cons_append] at isEnd ⊢
  have inner : templateContent? depth none (inside ++ t) = inFront inside (templateContent? depth none t) :=
    templateContent?_chars pure t
  have step : templateContent? (depth + 1) none ('<' :: (inside ++ t)) =
      inFront ['<'] (templateContent? depth none (inside ++ t)) := by
    simp [templateContent?, isEnd, inFront]
  rw [step, inner, inFront_inFront]
  rfl

/-- Inside a tag everything up to the bracket is passed over; then the last character tells what the tag was. -/
theorem templateContent?_inside {inside : Text} (pure : '>' ∉ inside) (slash : Bool) (t : Text) :
    templateContent? depth (some slash) (inside ++ '>' :: t) = inFront (inside ++ ['>'])
      (templateContent? (if inside.getLast?.elim slash (· = '/') then depth else depth + 1) none t) := by
  induction inside generalizing slash with
  | nil =>
    simp [templateContent?, inFront]
    rfl
  | cons c inside ih =>
    obtain ⟨other, further⟩ : '>' ≠ c ∧ '>' ∉ inside := by simpa using pure
    have last : (c :: inside).getLast?.elim slash (· = '/') = inside.getLast?.elim (decide (c = '/')) (· = '/') := by
      cases inside with
      | nil => simp
      | cons d inside =>
        rw [List.getLast?_cons_cons]
        cases found : (d :: inside).getLast? with
        | none => simp at found
        | some e => rfl
    have step : templateContent? depth (some slash) (c :: (inside ++ '>' :: t)) =
        inFront [c] (templateContent? depth (some (decide (c = '/'))) (inside ++ '>' :: t)) := by
      simp [templateContent?, other.symm, inFront]
    rw [List.cons_append, step, ih further, inFront_inFront, last]
    rfl

theorem templateContent?_cutOff {t : Text} (pure : '>' ∉ t) (slash : Bool) :
    templateContent? depth (some slash) t = none := by
  induction t generalizing slash with
  | nil => rfl
  | cons c t ih =>
    obtain ⟨other, further⟩ : '>' ≠ c ∧ '>' ∉ t := by simpa using pure
    simp [templateContent?, other.symm, ih further]

/-- Where a tag begins, the content goes on inside it. -/
theorem templateContent?_begins {t : Text} (begins : BeginsTemplate ('<' :: t)) :
    templateContent? depth none ('<' :: t) = inFront ['<'] (templateContent? depth (some false) t) := by
  have noEnd : startsWithIgnoringCase (closingTag templateName) ('<' :: t) = false := by
    obtain ⟨name, c, rest, split, named, -⟩ := begins
    obtain rfl := (List.cons.inj split).2
    cases name with
    | nil => exact absurd (equalsIgnoringCase_length named) (by decide)
    | cons d name =>
      have letter : d.toLower = 't' := (equalsIgnoringCase_cons (d := 't') (b := "emplate".toList).1 named).1
      have slash : '/' ≠ d.toLower := by
        rw [letter]
        decide
      have word : closingTag templateName = '<' :: '/' :: "template>".toList := rfl
      simp [startsWithIgnoringCase, word, slash]
  rw [beginsTemplate_iff] at begins
  simp [templateContent?, noEnd, begins, inFront]

theorem IsTemplateTag.begins {closes : Bool} {tag : Text} (h : IsTemplateTag closes tag) (t : Text) :
    BeginsTemplate (tag ++ t) := by
  obtain ⟨name, inside, rfl, named, blank, -, -⟩ := h
  cases inside with
  | nil => exact ⟨name, '>', t, by simp, named, .inl rfl⟩
  | cons c inside => exact ⟨name, c, inside ++ '>' :: t, by simp, named, .inr (blank c rfl)⟩

/-- A tag that closes itself leaves as many templates open as before, and any other one more. -/
theorem templateContent?_tag {closes : Bool} {tag : Text} (h : IsTemplateTag closes tag) (t : Text) :
    templateContent? depth none (tag ++ t) =
      inFront tag (templateContent? (if closes then depth else depth + 1) none t) := by
  have begins := h.begins t
  obtain ⟨name, inside, rfl, named, -, pure, last⟩ := h
  have pureName : '>' ∉ name := absent_of_equalsIgnoringCase named (by decide)
  have slashName : '/' ∉ name := absent_of_equalsIgnoringCase named (by decide)
  have regroup : '<' :: (name ++ (inside ++ ['>'])) ++ t = '<' :: ((name ++ inside) ++ '>' :: t) := by simp
  have ends : (name ++ inside).getLast?.elim false (· = '/') = closes := by
    rw [List.getLast?_append]
    cases final : inside.getLast? with
    | some c => simp_all
    | none =>
      have open_ : closes = false := by simpa [final] using last
      cases finalName : name.getLast? with
      | none => simp [open_]
      | some d =>
        have other : d ≠ '/' := by
          rintro rfl
          exact slashName (List.mem_of_mem_getLast? finalName)
        simp [open_, other]
  rw [regroup] at begins ⊢
  rw [templateContent?_begins begins, templateContent?_inside (by simp [pureName, pure]), ends, inFront_inFront]
  simp

/-! ## Nests are what is read -/

/-- What stands at the beginning of a text within a template. -/
theorem template_cases (t : Text) :
    t = [] ∨ (∃ c rest, c ≠ '<' ∧ t = c :: rest) ∨ (∃ close rest, IsTemplateEnd close ∧ t = close ++ rest) ∨
      (∃ closes tag rest, IsTemplateTag closes tag ∧ t = tag ++ rest) ∨
      (∃ rest, t = '<' :: rest ∧ ¬EndsTemplate t ∧ ¬BeginsTemplate t) ∨
      (∃ rest, t = '<' :: rest ∧ BeginsTemplate t ∧ '>' ∉ rest) := by
  cases t with
  | nil => exact .inl rfl
  | cons c rest =>
    by_cases other : c ≠ '<'
    · exact .inr (.inl ⟨c, rest, other, rfl⟩)
    obtain rfl : c = '<' := by simpa using other
    by_cases ends : EndsTemplate ('<' :: rest)
    · obtain ⟨close, rest', split, isEnd⟩ := ends
      exact .inr (.inr (.inl ⟨close, rest', isEnd, split⟩))
    by_cases begins : BeginsTemplate ('<' :: rest)
    · by_cases cutOff : '>' ∉ rest
      · exact .inr (.inr (.inr (.inr (.inr ⟨rest, rfl, begins, cutOff⟩))))
      obtain ⟨name, d, after, split, named, stop⟩ := begins
      obtain rfl := (List.cons.inj split).2
      have pureName : '>' ∉ name := absent_of_equalsIgnoringCase named (by decide)
      have member : '>' ∈ d :: after := by
        rcases List.mem_append.1 (not_not.1 cutOff) with inName | later
        · exact absurd inName pureName
        · exact later
      obtain ⟨inside, rest', split', pure⟩ := List.eq_append_cons_of_mem member
      refine .inr (.inr (.inr (.inl ⟨decide (inside.getLast? = some '/'), '<' :: (name ++ (inside ++ ['>'])), rest',
        ⟨name, inside, rfl, named, ?_, pure, by simp⟩, by simp [split']⟩)))
      intro e first
      cases inside with
      | nil => simp at first
      | cons f inside =>
        obtain ⟨rfl, -⟩ := List.cons.inj split'
        obtain rfl : d = e := by simpa using first
        exact stop.resolve_left fun bracket => pure (by simp [bracket])
    · exact .inr (.inr (.inr (.inr (.inl ⟨rest, rfl, ends, begins⟩))))

/-- What may stand in front of each nest may stand in front of several. -/
theorem Nests.grow {front t : Text} (grows : ∀ inner, Nest inner → inner <+: t → Nest (front ++ inner))
    (h : Nests depth t) : Nests depth (front ++ t) := by
  cases depth with
  | zero => exact grows t h List.prefix_rfl
  | succ depth =>
    obtain ⟨inner, close, rest, rfl, nest, ends, others⟩ := h
    exact ⟨front ++ inner, close, rest, by simp, grows inner nest (List.prefix_append ..), ends, others⟩

/-- By induction on the text, along what stands at its beginning: the count of open templates is the number of nests
that are still to be closed. -/
theorem nests_of_templateContent? {t content from_ : Text} (h : templateContent? depth none t = some (content, from_)) :
    t = content ++ from_ ∧ Nests depth content ∧ EndsTemplate from_ := by
  induction size : t.length using Nat.strongRecOn generalizing depth t content with
  | ind n ih =>
    subst size
    rcases template_cases t with rfl | ⟨c, rest, other, rfl⟩ | ⟨close, rest, ends, rfl⟩ | ⟨closes, tag, rest, isTag, rfl⟩ |
      ⟨rest, rfl, noEnd, noTag⟩ | ⟨rest, rfl, begins, cutOff⟩
    · simp [templateContent?] at h
    · rw [templateContent?_char other] at h
      obtain ⟨inner, cut, rfl⟩ := inFront_eq_some_iff.1 h
      obtain ⟨rfl, nests, final⟩ := ih rest.length (by simp) cut rfl
      exact ⟨rfl, nests.grow fun t nest _ => .char other nest, final⟩
    · cases depth with
      | zero =>
        rw [templateContent?_end ends rest] at h
        obtain ⟨rfl, rfl⟩ := Prod.mk.inj (Option.some.inj h)
        exact ⟨rfl, .empty, close, rest, rfl, ends⟩
      | succ depth =>
        rw [templateContent?_endInside ends rest] at h
        obtain ⟨inner, cut, rfl⟩ := inFront_eq_some_iff.1 h
        have shorter : rest.length < (close ++ rest).length := by
          obtain ⟨inside, rfl, -⟩ := ends.split
          simp only [List.length_append, List.length_cons]
          omega
        obtain ⟨rfl, nests, final⟩ := ih rest.length shorter cut rfl
        exact ⟨by simp, ⟨[], close, inner, rfl, .empty, ends, nests⟩, final⟩
    · rw [templateContent?_tag isTag] at h
      obtain ⟨inner, cut, rfl⟩ := inFront_eq_some_iff.1 h
      have shorter : rest.length < (tag ++ rest).length := by
        obtain ⟨name, inside, rfl, -⟩ := isTag
        simp only [List.length_append, List.length_cons]
        omega
      obtain ⟨rfl, nests, final⟩ := ih rest.length shorter cut rfl
      refine ⟨by simp, ?_, final⟩
      cases closes with
      | true => exact nests.grow fun t nest _ => .selfClosing isTag nest
      | false =>
        -- the first of the nests is inside the tag, and the second is behind its closing tag
        obtain ⟨inside, close, others, rfl, nest, ends, nests⟩ := nests
        have regroup : tag ++ (inside ++ (close ++ others)) = (tag ++ (inside ++ close)) ++ others := by simp
        rw [regroup]
        refine nests.grow fun t rest _ => ?_
        simpa using Nest.nested isTag nest ends rest
    · rw [templateContent?_bracket noEnd noTag] at h
      obtain ⟨inner, cut, rfl⟩ := inFront_eq_some_iff.1 h
      obtain ⟨rfl, nests, final⟩ := ih rest.length (by simp) cut rfl
      refine ⟨rfl, nests.grow fun t nest begins => .bracket ?_ ?_ nest, final⟩
      · rintro ⟨close, rest, split, ends⟩
        obtain ⟨more, rfl⟩ := begins
        exact noEnd ⟨close, rest ++ more ++ from_, by rw [← List.append_assoc, ← List.append_assoc, ← split]; simp, ends⟩
      · rintro ⟨name, c, rest, split, named, stop⟩
        obtain ⟨more, rfl⟩ := begins
        obtain rfl := (List.cons.inj split).2
        exact noTag ⟨name, c, rest ++ more ++ from_, by simp, named, stop⟩
    · rw [templateContent?_begins begins, templateContent?_cutOff cutOff] at h
      simp [inFront] at h

/-- By induction on the nest: it is passed over, with as many templates open behind it as before. -/
theorem Nest.templateContent?_append {u : Text} (h : Nest u) (depth : Nat) (w : Text) :
    templateContent? depth none (u ++ '<' :: w) = inFront u (templateContent? depth none ('<' :: w)) := by
  induction h generalizing depth w with
  | empty => simp
  | char other _ ih =>
    rw [List.cons_append, templateContent?_char other, ih, inFront_inFront]
    rfl
  | bracket noEnd noTag _ ih =>
    rw [List.cons_append, templateContent?_bracket (fun ends => noEnd ends.of_bracket) fun begins =>
      noTag begins.of_bracket, ih, inFront_inFront]
    rfl
  | @selfClosing tag t isTag _ ih =>
    rw [List.append_assoc, templateContent?_tag isTag, if_pos rfl, ih, inFront_inFront]
  | @nested tag inner close t isTag _ ends _ ihInner ihRest =>
    obtain ⟨inside, rfl, -⟩ := ends.split
    have regroup : tag ++ (inner ++ ('<' :: inside ++ t)) ++ '<' :: w =
        tag ++ (inner ++ '<' :: (inside ++ (t ++ '<' :: w))) := by simp
    have closed : templateContent? (depth + 1) none ('<' :: inside ++ (t ++ '<' :: w)) =
        inFront ('<' :: inside) (templateContent? depth none (t ++ '<' :: w)) := templateContent?_endInside ends _
    rw [List.cons_append] at closed
    rw [regroup, templateContent?_tag isTag, if_neg Bool.false_ne_true, ihInner, closed, ihRest]
    simp

/-- Template content is cut exactly behind a nest with a closing tag behind it. -/
theorem templateContent?_eq_some_iff {t content from_ : Text} :
    templateContent? 0 none t = some (content, from_) ↔ t = content ++ from_ ∧ Nest content ∧ EndsTemplate from_ := by
  constructor
  · exact nests_of_templateContent?
  · rintro ⟨rfl, nest, close, rest, rfl, ends⟩
    have here := templateContent?_end ends rest
    obtain ⟨inside, rfl, -⟩ := ends.split
    rw [List.cons_append] at here ⊢
    rw [nest.templateContent?_append, here]
    simp [inFront]

/-- An element that a template tag opens is what its content is read as. -/
theorem read?_template {opening t : Text} {as : Attributes}
    (named : equalsIgnoringCase (opening.takeWhile isTagNameChar) templateName = true)
    (tag : readTag .between [] (opening.dropWhile isTagNameChar) = some (as, false, t)) :
    ∃ front, '<' :: opening = front ++ t ∧
      Element.read? ('<' :: opening) = (templateContent? 0 none t).map fun (content, from_) =>
        ⟨opening.takeWhile isTagNameChar, as, false, front, content, from_.take (closingTag templateName).length⟩ := by
  obtain ⟨used, rest, -, -⟩ := readTag_local tag
  have whole : '<' :: opening = ('<' :: (opening.takeWhile isTagNameChar ++ used)) ++ t := by
    rw [List.cons_append, List.append_assoc, ← rest, List.takeWhile_append_dropWhile]
  have some_ : opening.takeWhile isTagNameChar ≠ [] := by
    intro none_
    rw [none_] at named
    exact absurd (equalsIgnoringCase_length named) (by decide)
  have size : (opening.takeWhile isTagNameChar).length + 3 = (closingTag templateName).length := by
    rw [equalsIgnoringCase_length named]
    rfl
  have cut : ('<' :: opening).take (opening.length + 1 - t.length) =
      '<' :: (opening.takeWhile isTagNameChar ++ used) := by
    have length : opening.length + 1 - t.length = ('<' :: (opening.takeWhile isTagNameChar ++ used)).length := by
      have total := congrArg List.length whole
      rw [List.length_append, List.length_cons] at total
      omega
    rw [length, whole, List.take_left]
  refine ⟨_, whole, ?_⟩
  rw [Element.read?]
  simp only [if_neg some_, tag, Option.bind_eq_bind, Option.bind_some, cut, content?, named, if_true, size]
  cases templateContent? 0 none t with
  | none => rfl
  | some found => rfl

/-- The text falls into a nest and, from a closing tag on, the rest. -/
def IsCut (t content from_ : Text) : Prop := t = content ++ from_ ∧ Nest content ∧ EndsTemplate from_

/-- Of what stands behind an opening tag, the content is cut where the text falls into a nest and a closing tag with
anything behind it, which it does in one way at most. Where it does not, no template is found. -/
theorem template_found_iff (t : Text) :
    (∀ content from_, templateContent? 0 none t = some (content, from_) ↔ IsCut t content from_) ∧
      (∀ content from_ content' from_', IsCut t content from_ → IsCut t content' from_' →
        content = content' ∧ from_ = from_') ∧
      ∀ opening as, equalsIgnoringCase (opening.takeWhile isTagNameChar) templateName = true →
        readTag .between [] (opening.dropWhile isTagNameChar) = some (as, false, t) →
          ((¬∃ content from_, IsCut t content from_) → Element.read? ('<' :: opening) = none) ∧
            ∀ content from_, IsCut t content from_ → ∃ e rest, Element.read? ('<' :: opening) = some e ∧
              '<' :: opening = e.opening ++ t ∧ e.content = content ∧ from_ = e.closing ++ rest ∧
              IsTemplateEnd e.closing := by
  have cuts (content from_ : Text) : templateContent? 0 none t = some (content, from_) ↔ IsCut t content from_ :=
    templateContent?_eq_some_iff
  refine ⟨cuts, fun content from_ content' from_' first second => ?_, fun opening as named tag => ?_⟩
  · have same := ((cuts _ _).2 first).symm.trans ((cuts _ _).2 second)
    exact Prod.mk.inj (Option.some.inj same)
  · obtain ⟨front, whole, reads⟩ := read?_template named tag
    constructor
    · intro none_
      rw [reads, Option.map_eq_none_iff, Option.eq_none_iff_forall_ne_some]
      rintro ⟨content, from_⟩ found
      exact none_ ⟨content, from_, (cuts _ _).1 found⟩
    · intro content from_ cut
      obtain ⟨close, rest, rfl, ends⟩ := cut.2.2
      have upTo : (close ++ rest).take (closingTag templateName).length = close := by
        rw [← equalsIgnoringCase_length ends, List.take_left]
      rw [(cuts _ _).2 cut, Option.map_some] at reads
      dsimp only at reads
      rw [upTo] at reads
      exact ⟨_, rest, reads, whole, rfl, rfl, ends⟩

theorem template_found_nested :
    let opening := "template lang=\"x\">\n<TEMPLATE #a >< b</Template\t></template><template #c /><templates/></TEMPLATE>\n".toList
    let content := "\n<TEMPLATE #a >< b</Template\t></template><template #c /><templates/>".toList
    let closing := "</TEMPLATE>".toList
    IsCut (content ++ (closing ++ ['\n'])) content (closing ++ ['\n']) ∧ Nest content ∧
      ∃ e, Element.read? ('<' :: opening) = some e ∧ e.content = content ∧ e.closing.length = closing.length := by
  intro opening content closing
  obtain ⟨cuts, -, found⟩ := template_found_iff (content ++ (closing ++ ['\n']))
  have cut := (cuts content (closing ++ ['\n'])).1 (by decide +kernel)
  obtain ⟨e, rest, reads, -, inside, -, ends⟩ :=
    (found opening [("lang".toList, "x".toList)] (by decide +kernel) (by decide +kernel)).2 _ _ cut
  exact ⟨cut, cut.2.1, e, reads, inside, equalsIgnoringCase_length ends⟩

end ComponentLint.Component
