import ComponentLint.Proofs.Component.Choice
import ComponentLint.Proofs.Text.Trim

/-! Extraction and reassembly are inverse. The frame around a script gives the document back, and a document
that is put together around another script is extracted in the same way: what stands before the script is
whole, so it is scanned as before; the script tag ends where the new script does; and what stands behind is
scanned from the same place of the text. -/
namespace ComponentLint.Component

/-! ## The frame of a script -/

/-- A frame is held under its path unless another one was before. -/
theorem Shelf.get?_insert (s : Shelf) (p q : Path) (before after : Text) :
    (s.insert p before after).1.get? q =
      (s.get? q).or (if q.normalize = p.normalize then some ⟨p.normalize, before, after⟩ else none) := by
  rw [insert]
  cases held : s.get? p with
  | some f =>
    dsimp only
    split_ifs with same
    · have here : s.get? q = s.get? p := by rw [get?, get?, same]
      rw [here, held]
      rfl
    · rw [Option.or_none]
  | none =>
    rw [get?, get?, List.find?_append, List.find?_singleton]
    simp [eq_comm]

/-- What is extracted into an empty shelf: the frame is the document on both sides of the chosen script. -/
theorem extract_eq_iff {path : Path} {document : Text} {s : Script} {shelf : Shelf} :
    extract {} path document = (.ok (some s), shelf) ↔ script? document = .ok (some s) ∧
      shelf = (({} : Shelf).insert path (((document.splitAt? s.span.start).map (·.1)).getD [])
        (((document.splitAt? s.span.stop).map (·.2)).getD [])).1 := by
  rw [extract]
  cases script? document with
  | error d => simp
  | ok found =>
    cases found with
    | none => simp
    | some s' =>
      simp only [Prod.mk.injEq, Except.ok.injEq, Option.some.injEq]
      constructor
      · rintro ⟨rfl, rfl⟩
        exact ⟨rfl, rfl⟩
      · rintro ⟨rfl, rfl⟩
        exact ⟨rfl, rfl⟩

/-- What is extracted into any shelf: the frame is what stands on both sides of the chosen script. -/
theorem extract_split (shelf : Shelf) (path : Path) {document before after : Text} {s : Script}
    (h : script? document = .ok (some s)) (whole : document = before ++ (s.content ++ after))
    (start : before.byteSize = s.span.start) (stop : (before ++ s.content).byteSize = s.span.stop) :
    extract shelf path document = (.ok (some s), (shelf.insert path before after).1) := by
  have left : document.splitAt? s.span.start = some (before, s.content ++ after) :=
    Text.splitAt?_eq_some_iff.2 ⟨whole, start⟩
  have right : document.splitAt? s.span.stop = some (before ++ s.content, after) :=
    Text.splitAt?_eq_some_iff.2 ⟨by simp [whole], stop⟩
  simp [extract, h, left, right]

theorem extract_of_split {path : Path} {s : Script} {before after : Text}
    (h : script? (before ++ s.content ++ after) = .ok (some s)) (start : before.byteSize = s.span.start)
    (stop : (before ++ s.content).byteSize = s.span.stop) :
    ∃ shelf, extract {} path (before ++ s.content ++ after) = (.ok (some s), shelf) ∧
      shelf.get? path = some ⟨path.normalize, before, after⟩ := by
  refine ⟨_, extract_split {} path h (List.append_assoc before s.content after) start stop, ?_⟩
  rw [Shelf.get?_insert, if_pos rfl]
  rfl

/-! ## Exchanging the script -/

/-- The closing tag of a script, its name spelled in any case, begins where `</script>` does. -/
theorem startsWith_closingTag {name : Text} (isScript : equalsIgnoringCase name "script".toList = true) (t : Text) :
    startsWithIgnoringCase (closingTag name) t = startsWithIgnoringCase (closingTag "script".toList) t := by
  have same : name.map Char.toLower = "script".toList.map Char.toLower := by simpa [equalsIgnoringCase] using isScript
  have lower : (closingTag name).map Char.toLower = (closingTag "script".toList).map Char.toLower := by
    simp only [closingTag, List.map_append, same]
  rw [Bool.eq_iff_iff, startsWithIgnoringCase_iff, startsWithIgnoringCase_iff]
  simp only [equalsIgnoringCase, lower]

/-- The closing tag of a script does not begin in a framed text that does not have it. -/
theorem closingTag_absent {script late rest : Text}
    (none_ : ∀ late, late <:+ script → startsWithIgnoringCase (closingTag "script".toList) late = false)
    (some_ : late ≠ []) (within : late <:+ '\n' :: (script.trim ++ ['\n'])) :
    startsWithIgnoringCase (closingTag "script".toList) (late ++ rest) = false := by
  rw [← Bool.not_eq_true, startsWithIgnoringCase_iff]
  rintro ⟨tag, behind, split, equal⟩
  have full : tag.map Char.toLower = (closingTag "script".toList).map Char.toLower := by
    simpa [equalsIgnoringCase] using equal
  have noFeed : '\n' ∉ tag := by
    intro member
    have lowered : ('\n').toLower ∈ tag.map Char.toLower := List.mem_map_of_mem member
    rw [full] at lowered
    exact absurd lowered (by decide)
  have inside : tag <:+: script := by
    obtain ⟨early, cut⟩ := within
    rcases List.eq_nil_or_concat' late with rfl | ⟨most, last, rfl⟩
    · contradiction
    rw [← List.append_assoc, ← List.cons_append] at cut
    obtain ⟨front, same⟩ := List.append_inj' cut rfl
    obtain rfl := List.singleton_inj.1 same
    -- the tag has no line feed, so it is over before the last one
    have inMost : tag <+: most := by
      rw [List.append_assoc, List.append_eq_append_iff] at split
      rcases split with ⟨more, rfl, feeds⟩ | ⟨more, rfl, -⟩
      · cases more with
        | nil => simp
        | cons c more =>
          obtain ⟨rfl, -⟩ := List.cons.inj feeds
          simp at noFeed
      · exact List.prefix_append tag more
    rcases List.suffix_cons_iff.1 ⟨early, front⟩ with rfl | later
    · cases tag with
      | nil => simp [closingTag] at full
      | cons c tag =>
        obtain ⟨rfl, -⟩ := List.cons_prefix_cons.1 inMost
        simp at noFeed
    · exact inMost.isInfix.trans (later.isInfix.trans (Text.trim_infix script))
  obtain ⟨start, finish, rfl⟩ := inside
  have found : startsWithIgnoringCase (closingTag "script".toList) (tag ++ finish) = true :=
    startsWithIgnoringCase_iff.2 ⟨tag, finish, rfl, equal⟩
  rw [none_ (tag ++ finish) ⟨start, by simp⟩] at found
  simp at found

def Element.withScript (e : Element) (script : Text) : Element :=
  { e with content := '\n' :: (script.trim ++ ['\n']) }

theorem visitedFrom_kinds (offset line offset' line' : Nat) (t : Text) :
    (visitedFrom 0 offset line t).map Placed.kind = (visitedFrom 0 offset' line' t).map Placed.kind := by
  have same := congrArg (List.map fun e => Placed.kind ⟨e, 0, 0⟩) (visitedFrom_elements 0 offset line offset' line' t)
  rwa [List.map_map, List.map_map] at same

theorem Element.read?_withScript {t : Text} {e : Element} (h : read? t = some e) (opens : e.selfClosing = false)
    (isScript : equalsIgnoringCase e.tag "script".toList = true) {script : Text}
    (none_ : ∀ late, late <:+ script → startsWithIgnoringCase (closingTag "script".toList) late = false)
    (rest : Text) : read? ((e.withScript script).source ++ rest) = some (e.withScript script) := by
  have raw : equalsIgnoringCase e.tag templateName = false := by
    have long := equalsIgnoringCase_length isScript
    rw [← Bool.not_eq_true]
    intro isTemplate
    rw [equalsIgnoringCase_length isTemplate] at long
    exact absurd long (by decide)
  refine read?_exchange h opens raw (fun late rest' some_ within => ?_) rest
  rw [startsWith_closingTag isScript]
  exact closingTag_absent none_ some_ within

theorem Placed.kind_script {p : Placed} (h : p.kind = .script ∨ p.kind = .scriptSetup) :
    equalsIgnoringCase p.element.tag "script".toList = true := by
  rw [kind] at h
  split_ifs at h with template script setup style <;> first | exact script | simp at h

/-- A document whose script is exchanged has its script in the same place, in the same language. -/
theorem script?_exchange {document : Text} {s : Script} {p : Placed} (h : script? document = .ok (some s))
    (found : chosen? (visited document) = some p) (opens : p.element.selfClosing = false)
    (clean : ∀ o ∈ strays document, p.offset ≤ o) {script : Text}
    (none_ : ∀ late, late <:+ script → startsWithIgnoringCase (closingTag "script".toList) late = false) :
    ∃ a rest, document = a ++ (p.element.source ++ rest) ∧ p.offset = Text.byteSize a ∧
      script? (a ++ ((p.element.withScript script).source ++ rest)) = .ok (some
        ⟨s.lang, (p.element.withScript script).content, ⟨Text.byteSize (a ++ p.element.opening),
          Text.byteSize (a ++ p.element.opening ++ (p.element.withScript script).content)⟩⟩) := by
  obtain ⟨admissible, p', found', lang, supported, -, -⟩ := script?_eq_some_iff.1 h
  obtain rfl := Option.some.inj (found'.symm.trans found)
  obtain ⟨before, after, split, first⟩ := chosen?_eq_some_iff.1 found
  obtain ⟨a, rest, whole, place, feeds, reads, stay⟩ := visitedFrom_split split
  obtain ⟨wholeFront, front, back⟩ := stay clean
  have isScript : equalsIgnoringCase p'.element.tag "script".toList = true :=
    Placed.kind_script (first.imp And.left And.left)
  have again := Element.read?_withScript reads opens isScript none_
  let q : Placed := ⟨p'.element.withScript script, Text.byteSize a, 1 + a.count '\n'⟩
  let after' := visitedFrom 0 (q.offset + Text.byteSize q.element.source)
    (q.line + q.element.source.count '\n') rest
  have now : visited (a ++ (q.element.source ++ rest)) = before ++ q :: after' := by
    rw [visited, visitedFrom_append wholeFront, front, visitedFrom_element (again rest)]
    simp [q, after']
  have kind : q.kind = p'.kind := rfl
  have kinds : (before ++ q :: after').map Placed.kind = (visited document).map Placed.kind := by
    rw [split, ← back]
    simp only [List.map_append, List.map_cons, kind, after']
    rw [visitedFrom_kinds]
  refine ⟨a, rest, whole, by rw [place, Nat.zero_add], script?_eq_some_iff.2 ?_⟩
  rw [now, kinds]
  refine ⟨admissible, q, chosen?_eq_some_iff.2 ⟨before, after', rfl, ?_⟩, lang, supported, rfl, ?_⟩
  · rw [kinds]
    exact first
  · simp [q, Placed.block, Element.withScript, Nat.add_assoc]

/-- Extraction and reassembly are inverse. The frame gives the document back around its script. If the script
tag does not close itself and nothing stray is visited before it, then a document put together around any
script without a closing tag is extracted with the same language, place and frame, and its script, which is
the trimmed one between two line feeds, is put together to the same document again. -/
theorem extract_wrap {path : Path} {document : Text} {s : Script} {shelf : Shelf}
    (h : extract {} path document = (.ok (some s), shelf)) :
    ∃ f p, shelf.get? path = some f ∧ f.before ++ s.content ++ f.after = document ∧
      f.before.byteSize = s.span.start ∧ chosen? (visited document) = some p ∧
      (p.element.selfClosing = false → (∀ o ∈ strays document, p.offset ≤ o) → ∀ script,
        (∀ late, late <:+ script → startsWithIgnoringCase (closingTag "script".toList) late = false) →
        ∃ s' shelf', extract {} path (f.wrap script) = (.ok (some s'), shelf') ∧ s'.lang = s.lang ∧
          s'.span.start = f.before.byteSize ∧ s'.content = ['\n'] ++ Text.trim script ++ ['\n'] ∧
          shelf'.get? path = some f ∧ f.wrap s'.content = f.wrap script) := by
  obtain ⟨extracted, rfl⟩ := extract_eq_iff.1 h
  obtain ⟨-, p, found, -, -, content, span⟩ := script?_eq_some_iff.1 extracted
  obtain ⟨a, rest, whole, place, block⟩ := chosen?_split found
  let f : Frame := ⟨path.normalize, a ++ p.element.opening, p.element.closing ++ rest⟩
  have together : f.before ++ s.content ++ f.after = document := by
    rw [whole, content]
    simp [f, Element.source]
  have start : f.before.byteSize = s.span.start := by rw [span, block]
  have stop : (f.before ++ s.content).byteSize = s.span.stop := by rw [span, block, content]
  obtain ⟨shelf, shelved, held⟩ := extract_of_split (by rw [together]; exact extracted) start stop
  rw [together, h] at shelved
  obtain ⟨-, rfl⟩ := Prod.mk.inj shelved
  refine ⟨f, p, held, together, start, found, fun opens clean script none_ => ?_⟩
  obtain ⟨a', rest', whole', place', exchanged⟩ := script?_exchange extracted found opens clean none_
  obtain ⟨rfl, rfl⟩ : a' = a ∧ rest' = rest := by
    have cut : document.splitAt? p.offset = some (a, p.element.source ++ rest) :=
      Text.splitAt?_eq_some_iff.2 ⟨whole, place.symm⟩
    have cut' : document.splitAt? p.offset = some (a', p.element.source ++ rest') :=
      Text.splitAt?_eq_some_iff.2 ⟨whole', place'.symm⟩
    obtain ⟨rfl, same⟩ := Prod.mk.inj (Option.some.inj (cut'.symm.trans cut))
    exact ⟨rfl, List.append_cancel_left same⟩
  let s' : Script := ⟨s.lang, (p.element.withScript script).content, ⟨Text.byteSize f.before,
    Text.byteSize (f.before ++ (p.element.withScript script).content)⟩⟩
  have framed : s'.content = ['\n'] ++ Text.trim script ++ ['\n'] := rfl
  have wrapped : f.wrap script = f.before ++ s'.content ++ f.after := by
    rw [framed, Frame.wrap]
    simp
  have pieces : f.before ++ s'.content ++ f.after = a' ++ ((p.element.withScript script).source ++ rest') := by
    simp [f, s', Element.withScript, Element.source]
  rw [← pieces] at exchanged
  obtain ⟨shelf', extracted', held'⟩ := extract_of_split exchanged rfl rfl
  rw [wrapped]
  refine ⟨s', shelf', extracted', rfl, rfl, framed, held', ?_⟩
  have blank : ∀ c ∈ ['\n'], Text.isBlank c = true := by
    intro c feed
    rw [List.mem_singleton.1 feed]
    rfl
  rw [Frame.wrap, framed, Text.trim_between blank blank]
  simp

theorem extract_wrap_component :
    ∃ s shelf f s' shelf', extract {} ⟨"/A.vue".toList⟩ "<!-- < --><p/><script lang='ts'>a\n</script>".toList =
        (.ok (some s), shelf) ∧ shelf.get? ⟨"/A.vue".toList⟩ = some f ∧
      extract {} ⟨"/A.vue".toList⟩ (f.wrap "<p> b".toList) = (.ok (some s'), shelf') ∧
      s'.content = "\n<p> b\n".toList ∧ shelf'.get? ⟨"/A.vue".toList⟩ = some f := by
  have h : extract {} ⟨"/A.vue".toList⟩ "<!-- < --><p/><script lang='ts'>a\n</script>".toList =
      (.ok (some ⟨"ts".toList, "a\n".toList, ⟨32, 34⟩⟩),
        ⟨[⟨⟨"/A.vue".toList⟩, "<!-- < --><p/><script lang='ts'>".toList, "</script>".toList⟩]⟩) := by rfl
  obtain ⟨f, p, held, -, -, found, exchange⟩ := extract_wrap h
  have p_ : p = ⟨⟨"script".toList, [("lang".toList, "ts".toList)], false, "<script lang='ts'>".toList, "a\n".toList,
      "</script>".toList⟩, 14, 1⟩ := Option.some.inj (found.symm.trans (by rfl))
  subst p
  have clean : ∀ o ∈ strays "<!-- < --><p/><script lang='ts'>a\n</script>".toList, 14 ≤ o := by
    have none_ : strays "<!-- < --><p/><script lang='ts'>a\n</script>".toList = [] := by rfl
    rw [none_]
    simp
  have bare : ∀ late ∈ "<p> b".toList.tails, startsWithIgnoringCase (closingTag "script".toList) late = false := by
    decide
  obtain ⟨s', shelf', extracted, -, -, content, held', -⟩ := exchange rfl clean "<p> b".toList
    fun late within => bare late ((List.mem_tails _ _).2 within)
  exact ⟨_, _, f, s', shelf', h, held, extracted, content, held'⟩

end ComponentLint.Component
