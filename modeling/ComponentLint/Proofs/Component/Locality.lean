import ComponentLint.Component.Element
import Mathlib.Data.List.TakeWhile

/-! Reading an element takes a beginning of the text, and what it finds does not depend on what follows
that beginning. `Element.read?_local` says so of a whole element, `Element.read?_exchange` of an element
whose raw content is exchanged. -/
namespace ComponentLint.Component

theorem startsWithIgnoringCase_iff {word t : Text} :
    startsWithIgnoringCase word t = true ↔ ∃ a b, t = a ++ b ∧ equalsIgnoringCase a word = true := by
  induction word generalizing t with
  | nil => exact ⟨fun _ => ⟨[], t, rfl, rfl⟩, fun _ => rfl⟩
  | cons w word ih =>
    cases t with
    | nil => simp [startsWithIgnoringCase, equalsIgnoringCase]
    | cons c t =>
      simp only [startsWithIgnoringCase, Bool.and_eq_true, decide_eq_true_eq, ih]
      constructor
      · rintro ⟨same, a, b, rfl, equal⟩
        refine ⟨c :: a, b, rfl, ?_⟩
        simpa [equalsIgnoringCase, same] using equal
      · rintro ⟨a, b, split, equal⟩
        cases a with
        | nil => simp [equalsIgnoringCase] at equal
        | cons d a =>
          obtain ⟨rfl, rfl⟩ := List.cons.inj split
          simp only [equalsIgnoringCase, List.map_cons, decide_eq_true_eq, List.cons.injEq] at equal
          exact ⟨equal.1.symm, a, b, rfl, by simpa [equalsIgnoringCase] using equal.2⟩

theorem equalsIgnoringCase_length {a b : Text} (h : equalsIgnoringCase a b = true) : a.length = b.length := by
  have same : a.map Char.toLower = b.map Char.toLower := by simpa [equalsIgnoringCase] using h
  simpa using congrArg List.length same

theorem startsWithIgnoringCase_take {word a b : Text} (long : word.length ≤ a.length) :
    startsWithIgnoringCase word (a ++ b) = startsWithIgnoringCase word a := by
  induction word generalizing a with
  | nil => simp [startsWithIgnoringCase]
  | cons w word ih =>
    cases a with
    | nil => simp at long
    | cons c a =>
      have shorter : word.length ≤ a.length := by simpa using long
      simp [startsWithIgnoringCase, ih shorter]

/-! ## Opening tags -/

namespace TagState

theorem apart_closed_iff {as bs : Attributes} {c : Char} {next : Option Char} :
    apart as c next = .closed bs ↔ c = '>' ∧ as = bs := by
  unfold apart
  split_ifs
  all_goals simp_all

theorem apart_selfClosed {as bs : Attributes} {c : Char} {next : Option Char}
    (h : apart as c next = .selfClosed bs) : next = some '>' := by
  unfold apart at h
  split_ifs at h
  all_goals simp_all

/-- A step either leaves the character to the space between attributes or goes on without a look ahead. -/
theorem step_cases (s : TagState) (as : Attributes) (c : Char) :
    (∃ bs, ∀ next, s.step as c next = apart bs c next) ∨ (∃ s' bs, ∀ next, s.step as c next = .more s' bs) := by
  cases s with
  | between => exact .inl ⟨as, fun _ => rfl⟩
  | name read =>
    simp only [step, afterName]
    split_ifs
    · exact .inr ⟨_, _, fun _ => rfl⟩
    · exact .inr ⟨_, _, fun _ => rfl⟩
    · exact .inl ⟨_, fun _ => rfl⟩
    · exact .inr ⟨_, _, fun _ => rfl⟩
  | named n =>
    simp only [step, afterName]
    split_ifs
    · exact .inr ⟨_, _, fun _ => rfl⟩
    · exact .inr ⟨_, _, fun _ => rfl⟩
    · exact .inl ⟨_, fun _ => rfl⟩
  | valued n =>
    simp only [step, inBare]
    split_ifs
    · exact .inr ⟨_, _, fun _ => rfl⟩
    · exact .inr ⟨_, _, fun _ => rfl⟩
    · exact .inl ⟨_, fun _ => rfl⟩
    · exact .inr ⟨_, _, fun _ => rfl⟩
  | quoted n mark read =>
    simp only [step]
    split_ifs
    · exact .inr ⟨_, _, fun _ => rfl⟩
    · exact .inr ⟨_, _, fun _ => rfl⟩
  | bare n read =>
    simp only [step, inBare]
    split_ifs
    · exact .inl ⟨_, fun _ => rfl⟩
    · exact .inr ⟨_, _, fun _ => rfl⟩

theorem step_closed {s : TagState} {as bs : Attributes} {c : Char} {next : Option Char}
    (h : s.step as c next = .closed bs) : c = '>' ∧ ∀ next', s.step as c next' = .closed bs := by
  rcases step_cases s as c with ⟨cs, same⟩ | ⟨s', cs, same⟩
  · rw [same, apart_closed_iff] at h
    exact ⟨h.1, fun next' => by rw [same, apart_closed_iff]; exact h⟩
  · rw [same] at h
    contradiction

theorem step_selfClosed {s : TagState} {as bs : Attributes} {c : Char} {next : Option Char}
    (h : s.step as c next = .selfClosed bs) : next = some '>' := by
  rcases step_cases s as c with ⟨cs, same⟩ | ⟨s', cs, same⟩
  · rw [same] at h
    exact apart_selfClosed h
  · rw [same] at h
    contradiction

end TagState

/-- The rest of a tag is read from a beginning of the text, which ends in the tag's bracket. -/
theorem readTag_local {s : TagState} {as bs : Attributes} {closes : Bool} {t behind : Text}
    (h : readTag s as t = some (bs, closes, behind)) :
    ∃ used, t = used ++ behind ∧ used.getLast? = some '>' ∧
      ∀ rest, readTag s as (used ++ rest) = some (bs, closes, rest) := by
  induction t generalizing s as with
  | nil => simp [readTag] at h
  | cons c t ih =>
    simp only [readTag] at h
    cases stepped : s.step as c t.head? with
    | more s' as' =>
      rw [stepped] at h
      obtain ⟨used, rfl, last, reads⟩ := ih h
      have first : (used ++ behind).head? = used.head? := by
        cases used with
        | nil => simp at last
        | cons d used => rfl
      refine ⟨c :: used, rfl, ?_, fun rest => ?_⟩
      · cases used with
        | nil => simp at last
        | cons d used => simpa using last
      · have ahead : (used ++ rest).head? = used.head? := by
          cases used with
          | nil => simp at last
          | cons d used => rfl
        rw [first] at stepped
        simp only [List.cons_append, readTag, ahead, stepped]
        exact reads rest
    | closed as' =>
      rw [stepped] at h
      obtain ⟨rfl, rfl, rfl⟩ : as' = bs ∧ false = closes ∧ t = behind := by simpa using h
      obtain ⟨rfl, closed⟩ := TagState.step_closed stepped
      refine ⟨['>'], rfl, rfl, fun rest => ?_⟩
      rw [List.cons_append, readTag, closed]
      rfl
    | selfClosed as' =>
      rw [stepped] at h
      obtain ⟨rfl, rfl, rest_eq⟩ : as' = bs ∧ true = closes ∧ t.drop 1 = behind := by simpa using h
      have next := TagState.step_selfClosed stepped
      cases t with
      | nil => simp at next
      | cons d t =>
        obtain rfl : d = '>' := by simpa using next
        refine ⟨[c, '>'], by simpa using rest_eq, rfl, fun rest => ?_⟩
        have stepped' : s.step as c ('>' :: rest).head? = .selfClosed as' := stepped
        rw [List.cons_append, readTag, List.cons_append, List.nil_append, stepped']
        rfl

/-! ## Content -/

/-- Raw content stops at the first place where the closing tag begins. -/
theorem rawContent?_eq_some_iff {closing t content from_ : Text} :
    rawContent? closing t = some (content, from_) ↔
      t = content ++ from_ ∧ from_ ≠ [] ∧ startsWithIgnoringCase closing from_ = true ∧
        ∀ late, late ≠ [] → late <:+ content → startsWithIgnoringCase closing (late ++ from_) = false := by
  induction t generalizing content with
  | nil =>
    simp only [rawContent?, reduceCtorEq, List.nil_eq, List.append_eq_nil_iff, false_iff]
    rintro ⟨⟨-, rfl⟩, some_, -⟩
    exact some_ rfl
  | cons c t ih =>
    simp only [rawContent?]
    split_ifs with starts
    · constructor
      · intro h
        obtain ⟨rfl, rfl⟩ : [] = content ∧ c :: t = from_ := by simpa using h
        refine ⟨rfl, by simp, starts, fun late some_ suffix => ?_⟩
        exact absurd (List.suffix_nil.1 suffix) some_
      · rintro ⟨split, -, -, first⟩
        cases content with
        | nil => simpa using split
        | cons d content =>
          have whole := first (d :: content) (by simp) (List.suffix_refl _)
          rw [← split, starts] at whole
          contradiction
    · constructor
      · intro h
        obtain ⟨⟨inside, behind⟩, found, same⟩ := Option.map_eq_some_iff.1 h
        obtain ⟨rfl, rfl⟩ : c :: inside = content ∧ behind = from_ := by simpa using same
        obtain ⟨rfl, some_, here, first⟩ := ih.1 found
        refine ⟨rfl, some_, here, fun late nonempty suffix => ?_⟩
        rcases List.suffix_cons_iff.1 suffix with rfl | shorter
        · simpa using starts
        · exact first late nonempty shorter
      · rintro ⟨split, some_, here, first⟩
        cases content with
        | nil =>
          rw [List.nil_append] at split
          rw [← split] at here
          contradiction
        | cons d content =>
          obtain ⟨rfl, rfl⟩ := List.cons.inj split
          have found := ih.2 ⟨rfl, some_, here, fun late nonempty suffix =>
            first late nonempty (suffix.trans (List.suffix_cons _ _))⟩
          rw [found]
          rfl

theorem opensTemplate_take {a b : Text} (long : templateName.length + 1 < a.length) :
    opensTemplate (a ++ b) = opensTemplate a := by
  have start : ('<' :: templateName).length ≤ a.length := by simp; omega
  have next : ((a ++ b).drop (templateName.length + 1)).head? = (a.drop (templateName.length + 1)).head? := by
    rw [List.drop_append_of_le_length (by omega), List.head?_append]
    cases rest : a.drop (templateName.length + 1) with
    | nil => have := List.drop_eq_nil_iff.1 rest; omega
    | cons c rest => rfl
  rw [opensTemplate, opensTemplate, startsWithIgnoringCase_take start, next]

/-- What template content looks for at a place depends on no more than a closing tag behind it. -/
theorem template_look {close : Text} (full : close.length = (closingTag templateName).length) (c : Char)
    (inside rest rest' : Text) :
    startsWithIgnoringCase (closingTag templateName) (c :: (inside ++ (close ++ rest))) =
        startsWithIgnoringCase (closingTag templateName) (c :: (inside ++ (close ++ rest'))) ∧
      opensTemplate (c :: (inside ++ (close ++ rest))) = opensTemplate (c :: (inside ++ (close ++ rest'))) := by
  have long : (closingTag templateName).length ≤ (c :: (inside ++ close)).length := by simp; omega
  have size : templateName.length + 1 < (closingTag templateName).length := by decide
  have split (r : Text) : c :: (inside ++ (close ++ r)) = (c :: (inside ++ close)) ++ r := by simp
  rw [split rest, split rest', startsWithIgnoringCase_take long, startsWithIgnoringCase_take long,
    opensTemplate_take (by omega), opensTemplate_take (by omega)]
  exact ⟨rfl, rfl⟩

/-- Template content is cut where a closing tag begins, and no further than that tag is looked at. -/
theorem templateContent?_local {depth : Nat} {nested : Option Bool} {t content from_ : Text}
    (h : templateContent? depth nested t = some (content, from_)) :
    ∃ close rest, from_ = close ++ rest ∧ equalsIgnoringCase close (closingTag templateName) = true ∧
      t = content ++ from_ ∧
      ∀ rest', templateContent? depth nested (content ++ (close ++ rest')) = some (content, close ++ rest') := by
  induction t generalizing depth nested content with
  | nil => simp [templateContent?] at h
  | cons c t ih =>
    -- one character in front of content that is cut in the same way
    have prepend {depth' : Nat} {nested' : Option Bool}
        (found : (templateContent? depth' nested' t).map (fun cut => (c :: cut.1, cut.2)) = some (content, from_))
        (resumes : ∀ t', startsWithIgnoringCase (closingTag templateName) (c :: t') =
            startsWithIgnoringCase (closingTag templateName) (c :: t) →
          opensTemplate (c :: t') = opensTemplate (c :: t) →
          templateContent? depth nested (c :: t') =
            (templateContent? depth' nested' t').map fun cut => (c :: cut.1, cut.2)) :
        ∃ close rest, from_ = close ++ rest ∧ equalsIgnoringCase close (closingTag templateName) = true ∧
          c :: t = content ++ from_ ∧ ∀ rest',
            templateContent? depth nested (content ++ (close ++ rest')) = some (content, close ++ rest') := by
      obtain ⟨⟨inside, behind⟩, cut, same⟩ := Option.map_eq_some_iff.1 found
      obtain ⟨rfl, rfl⟩ : c :: inside = content ∧ behind = from_ := by simpa using same
      obtain ⟨close, rest, rfl, equal, rfl, again⟩ := ih cut
      refine ⟨close, rest, rfl, equal, rfl, fun rest' => ?_⟩
      have look := template_look (equalsIgnoringCase_length equal) c inside rest' rest
      rw [List.cons_append, resumes _ look.1 look.2, again rest']
      rfl
    cases nested with
    | some slash =>
      simp only [templateContent?] at h
      split_ifs at h with bracket nest
      · exact prepend h fun t' _ _ => by simp [templateContent?, bracket, nest]
      · exact prepend h fun t' _ _ => by simp [templateContent?, bracket, nest]
      · exact prepend h fun t' _ _ => by simp [templateContent?, bracket]
    | none =>
      simp only [templateContent?] at h
      split_ifs at h with closes opens
      · cases depth with
        | zero =>
          obtain ⟨rfl, rfl⟩ : [] = content ∧ c :: t = from_ := by simpa using h
          obtain ⟨close, rest, split, equal⟩ := startsWithIgnoringCase_iff.1 closes
          refine ⟨close, rest, split, equal, rfl, fun rest' => ?_⟩
          have again : startsWithIgnoringCase (closingTag templateName) (close ++ rest') = true :=
            startsWithIgnoringCase_iff.2 ⟨close, rest', rfl, equal⟩
          cases close with
          | nil => exact absurd (equalsIgnoringCase_length equal) (by decide)
          | cons d close =>
            simp only [List.nil_append, List.cons_append] at again ⊢
            simp [templateContent?, again]
        | succ depth =>
          exact prepend h fun t' closes' _ => by simp [templateContent?, closes', closes]
      · exact prepend h fun t' closes' opens' => by simp [templateContent?, closes', closes, opens', opens]
      · exact prepend h fun t' closes' opens' => by simp [templateContent?, closes', closes, opens', opens]

theorem rawContent?_local {closing t content from_ : Text} (h : rawContent? closing t = some (content, from_)) :
    ∃ close rest, from_ = close ++ rest ∧ equalsIgnoringCase close closing = true ∧ t = content ++ from_ ∧
      (closing ≠ [] → ∀ rest', rawContent? closing (content ++ (close ++ rest')) = some (content, close ++ rest')) := by
  obtain ⟨split, -, starts, first⟩ := rawContent?_eq_some_iff.1 h
  obtain ⟨close, rest, rfl, equal⟩ := startsWithIgnoringCase_iff.1 starts
  have full := equalsIgnoringCase_length equal
  refine ⟨close, rest, rfl, equal, split, fun some_ rest' => rawContent?_eq_some_iff.2 ⟨rfl, ?_, ?_, ?_⟩⟩
  · intro none_
    obtain ⟨rfl, -⟩ := List.append_eq_nil_iff.1 none_
    exact some_ (List.length_eq_zero_iff.1 full.symm)
  · exact startsWithIgnoringCase_iff.2 ⟨close, rest', rfl, equal⟩
  · intro late nonempty suffix
    have long : closing.length ≤ (late ++ close).length := by simp; omega
    have here := first late nonempty suffix
    rw [← List.append_assoc, startsWithIgnoringCase_take long] at here ⊢
    exact here

/-- Content stops at its closing tag, and nothing behind that tag has a say in it. -/
theorem content?_local {tag t content from_ : Text} (h : content? tag t = some (content, from_)) :
    ∃ close rest, from_ = close ++ rest ∧ equalsIgnoringCase close (closingTag tag) = true ∧ t = content ++ from_ ∧
      ∀ rest', content? tag (content ++ (close ++ rest')) = some (content, close ++ rest') := by
  unfold content? at h ⊢
  split_ifs at h ⊢ with isTemplate
  · obtain ⟨close, rest, split, equal, cut, again⟩ := templateContent?_local h
    refine ⟨close, rest, split, ?_, cut, again⟩
    simp only [equalsIgnoringCase, closingTag, List.map_append, decide_eq_true_eq] at equal isTemplate ⊢
    rw [equal, isTemplate]
  · obtain ⟨close, rest, split, equal, cut, again⟩ := rawContent?_local h
    exact ⟨close, rest, split, equal, cut, again (by simp [closingTag])⟩

/-! ## Elements -/

namespace Element

/-- What is read behind the opening tag of an element. -/
def resume? (e : Element) (behind : Text) : Option Element :=
  if e.selfClosing then some { e with content := [], closing := [] }
  else (content? e.tag behind).map fun (content, from_) =>
    { e with content := content, closing := from_.take (e.tag.length + 3) }

theorem resume?_content {e : Element} {behind content from_ : Text} (opens : e.selfClosing = false)
    (cut : content? e.tag behind = some (content, from_)) :
    e.resume? behind = some { e with content := content, closing := from_.take (e.tag.length + 3) } := by
  simp [resume?, opens, cut]

theorem resume?_keeps {e found : Element} {behind : Text} (h : e.resume? behind = some found) :
    found.opening = e.opening ∧ found.resume? = e.resume? := by
  unfold resume? at h
  split_ifs at h with closes
  · obtain rfl := Option.some.inj h
    exact ⟨rfl, rfl⟩
  · obtain ⟨⟨content, from_⟩, -, rfl⟩ := Option.map_eq_some_iff.1 h
    exact ⟨rfl, rfl⟩

/-- Behind its opening tag, an element that does not close itself has its content and its closing tag. -/
theorem resume?_local {e : Element} {behind : Text} (opens : e.selfClosing = false)
    (h : e.resume? behind = some e) :
    ∃ rest, behind = e.content ++ (e.closing ++ rest) ∧ equalsIgnoringCase e.closing (closingTag e.tag) = true ∧
      ∀ rest', e.resume? (e.content ++ (e.closing ++ rest')) = some e := by
  simp only [resume?, opens, Bool.false_eq_true, if_false] at h
  obtain ⟨⟨content, from_⟩, cut, same⟩ := Option.map_eq_some_iff.1 h
  obtain ⟨close, rest, rfl, equal, rfl, again⟩ := content?_local cut
  have full : close.length = e.tag.length + 3 := by
    rw [equalsIgnoringCase_length equal]; simp [closingTag]
  have upTo (r : Text) : (close ++ r).take (e.tag.length + 3) = close := by rw [← full]; simp
  simp only [upTo] at same
  obtain rfl : content = e.content := by rw [← same]
  obtain rfl : close = e.closing := by rw [← same]
  exact ⟨rest, rfl, equal, fun rest' => by rw [resume?_content opens (again rest'), upTo]⟩

theorem resume?_selfClosing {e : Element} {behind : Text} (closes : e.selfClosing = true)
    (h : e.resume? behind = some e) : e.source = e.opening ∧ ∀ behind', e.resume? behind' = some e := by
  have whole : { e with content := [], closing := [] } = e := by simpa [resume?, closes] using h
  refine ⟨?_, fun behind' => by rw [resume?, if_pos closes, whole]⟩
  rw [← whole]
  simp [source]

/-- What `read?` does, with the opening tag cut in its name and the rest. -/
theorem read?_parts {name inside behind : Text} {as : Attributes} {closes : Bool} (named : name ≠ [])
    (isName : ∀ c ∈ name, isTagNameChar c = true) (ends : ∀ c ∈ inside.head?, isTagNameChar c = false)
    (some_ : inside ≠ []) (tag : readTag .between [] (inside ++ behind) = some (as, closes, behind)) :
    read? ('<' :: (name ++ (inside ++ behind))) =
      Element.resume? ⟨name, as, closes, '<' :: (name ++ inside), [], []⟩ behind := by
  have stops : (inside ++ behind).takeWhile isTagNameChar = [] := by
    cases inside with
    | nil => exact absurd rfl some_
    | cons c inside => rw [List.cons_append, List.takeWhile_cons_of_neg (by rw [ends c rfl]; exact Bool.false_ne_true)]
  have taken : (name ++ (inside ++ behind)).takeWhile isTagNameChar = name := by
    rw [List.takeWhile_append_of_pos isName, stops, List.append_nil]
  have dropped : (name ++ (inside ++ behind)).dropWhile isTagNameChar = inside ++ behind := by
    rw [List.dropWhile_append_of_pos isName]
    cases inside with
    | nil => exact absurd rfl some_
    | cons c inside => rw [List.cons_append, List.dropWhile_cons_of_neg (by rw [ends c rfl]; exact Bool.false_ne_true)]
  have size : (name ++ (inside ++ behind)).length + 1 - behind.length = ('<' :: (name ++ inside)).length := by
    simp; omega
  have opening : ('<' :: (name ++ (inside ++ behind))).take ('<' :: (name ++ inside)).length =
      '<' :: (name ++ inside) := by
    have regroup : '<' :: (name ++ (inside ++ behind)) = ('<' :: (name ++ inside)) ++ behind := by simp
    rw [regroup, List.take_left']
    rfl
  rw [read?]
  simp only [taken, if_neg named, dropped, tag, Option.bind_eq_bind, Option.bind_some, size, opening, resume?]
  cases closes with
  | true => rfl
  | false =>
    cases content? name behind with
    | none => rfl
    | some found => rfl

theorem read?_tag {t : Text} {e : Element} (h : read? ('<' :: t) = some e) :
    ∃ name inside behind as closes, t = name ++ (inside ++ behind) ∧ name ≠ [] ∧
      (∀ c ∈ name, isTagNameChar c = true) ∧ inside ≠ [] ∧ (∀ c ∈ inside.head?, isTagNameChar c = false) ∧
      ∀ rest, readTag .between [] (inside ++ rest) = some (as, closes, rest) := by
  rw [read?] at h
  by_cases named : t.takeWhile isTagNameChar = []
  · simp [named] at h
  cases tag : readTag .between [] (t.dropWhile isTagNameChar) with
  | none => simp [named, tag] at h
  | some found =>
    obtain ⟨as, closes, behind⟩ := found
    obtain ⟨inside, split, last, again⟩ := readTag_local tag
    have some_ : inside ≠ [] := fun none_ => by simp [none_] at last
    refine ⟨_, inside, behind, as, closes, ?_, named, fun c => List.mem_takeWhile_imp, some_, ?_, again⟩
    · rw [← split, List.takeWhile_append_dropWhile]
    · intro c first
      have head : (t.dropWhile isTagNameChar).head? = some c := by
        rw [split, List.head?_append, first]
        rfl
      have stop := List.head?_dropWhile_not isTagNameChar t
      rw [head] at stop
      exact stop

theorem read?_opening {t : Text} {e : Element} (h : read? t = some e) :
    ∃ d inside behind, e.opening = '<' :: d :: inside ∧ isTagNameChar d = true ∧ t = e.opening ++ behind ∧
      e.resume? behind = some e ∧ ∀ behind', read? (e.opening ++ behind') = e.resume? behind' := by
  cases t with
  | nil => simp [read?] at h
  | cons c t =>
    by_cases bracket : c = '<'
    · subst c
      obtain ⟨name, inside, behind, as, closes, rfl, named, isName, some_, ends, tag⟩ := read?_tag h
      let bare : Element := ⟨name, as, closes, '<' :: (name ++ inside), [], []⟩
      have reads (behind' : Text) : read? (bare.opening ++ behind') = bare.resume? behind' := by
        have regroup : bare.opening ++ behind' = '<' :: (name ++ (inside ++ behind')) := by simp [bare]
        rw [regroup, read?_parts named isName ends some_ (tag behind')]
      have resumed : bare.resume? behind = some e := by
        rw [← reads behind, ← h]
        simp [bare]
      have same := resume?_keeps resumed
      cases name with
      | nil => contradiction
      | cons d name =>
        refine ⟨d, name ++ inside, behind, same.1, isName d (by simp), ?_, ?_, ?_⟩
        · rw [same.1]; simp [bare]
        · rw [same.2, resumed]
        · rw [same.1, same.2]; exact reads
    · simp [read?, bracket] at h

/-- An element is read from the piece of the document that it takes up, whatever follows. -/
theorem read?_local {t : Text} {e : Element} (h : read? t = some e) :
    ∃ rest, t = e.source ++ rest ∧ ∀ rest', read? (e.source ++ rest') = some e := by
  obtain ⟨d, inside, behind, -, -, rfl, resumed, again⟩ := read?_opening h
  cases closes : e.selfClosing with
  | true =>
    obtain ⟨bare, whole⟩ := resume?_selfClosing closes resumed
    exact ⟨behind, by rw [bare], fun rest' => by rw [bare, again, whole]⟩
  | false =>
    obtain ⟨rest, rfl, -, stays⟩ := resume?_local closes resumed
    refine ⟨rest, by simp [source], fun rest' => ?_⟩
    have regroup : e.source ++ rest' = e.opening ++ (e.content ++ (e.closing ++ rest')) := by simp [source]
    rw [regroup, again, stays]

/-- The raw content of an element may be exchanged for any other in which its closing tag does not begin. -/
theorem read?_exchange {t : Text} {e : Element} (h : read? t = some e) (opens : e.selfClosing = false)
    (raw : equalsIgnoringCase e.tag templateName = false) {content : Text}
    (absent : ∀ late rest, late ≠ [] → late <:+ content →
      startsWithIgnoringCase (closingTag e.tag) (late ++ (e.closing ++ rest)) = false) (rest : Text) :
    read? ({ e with content := content }.source ++ rest) = some { e with content := content } := by
  obtain ⟨d, inside, behind, -, -, rfl, resumed, again⟩ := read?_opening h
  obtain ⟨-, -, equal, -⟩ := resume?_local opens resumed
  have full : e.closing.length = e.tag.length + 3 := by
    rw [equalsIgnoringCase_length equal]; simp [closingTag]
  have some_ : e.closing ≠ [] := fun none_ => by simp [none_] at full
  have cut : content? e.tag (content ++ (e.closing ++ rest)) = some (content, e.closing ++ rest) := by
    rw [content?, if_neg (by simp [raw]), rawContent?_eq_some_iff]
    exact ⟨rfl, by simp [some_], startsWithIgnoringCase_iff.2 ⟨_, _, rfl, equal⟩, fun late => absent late rest⟩
  have regroup : { e with content := content }.source ++ rest = e.opening ++ (content ++ (e.closing ++ rest)) := by
    simp [source]
  have upTo : (e.closing ++ rest).take (e.tag.length + 3) = e.closing := by rw [← full]; simp
  rw [regroup, again, resume?_content opens cut, upTo]

end Element

end ComponentLint.Component
