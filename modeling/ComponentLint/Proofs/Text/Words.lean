import ComponentLint.Text.Words
import Mathlib

/-! Where the search for whole words finds a word. It goes on behind each occurrence that it meets. So one that begins
inside of another is passed over, even if it stands apart and the other one does not. This happens to the words that
begin anew within themselves, behind a character that is no word character, and to no other ones. -/
namespace ComponentLint.Text

variable {word text before after rest earlier : Text} {c : Char} {skip : Nat}

/-- What stands on either side of an occurrence does not touch it with a word character. -/
def Apart (before after : Text) : Prop :=
  (∀ c ∈ before.getLast?, isWordChar c = false) ∧ ∀ c ∈ after.head?, isWordChar c = false

/-- The word occurs somewhere in the text with no word character in front of it or behind it. -/
def Stands (word text : Text) : Prop := ∃ before after, text = before ++ (word ++ after) ∧ Apart before after

/-- The word occurs behind a beginning of the text, where all that is found earlier has ended. So occurrences are found
from the left to the right, and none within another one that is found. -/
def Found (word text before : Text) : Prop :=
  before ++ word <+: text ∧
    ∀ earlier, earlier.length < before.length → Found word text earlier → earlier ++ word <+: before
termination_by before.length

theorem isWordBoundary_iff {neighbour : Option Char} :
    isWordBoundary neighbour = true ↔ ∀ c ∈ neighbour, isWordChar c = false := by
  cases neighbour <;> simp [isWordBoundary]

instance (before after : Text) : Decidable (Apart before after) :=
  decidable_of_iff (isWordBoundary before.getLast? = true ∧ isWordBoundary after.head? = true)
    (and_congr isWordBoundary_iff isWordBoundary_iff)

theorem Found.occurs (h : Found word text before) : before ++ word <+: text := by
  rw [Found] at h
  exact h.1

theorem Found.ended (h : Found word text before) (short : earlier.length < before.length)
    (found : Found word text earlier) : earlier ++ word <+: before := by
  rw [Found] at h
  exact h.2 earlier short found

theorem Found.begins (h : Found word text before) : before <+: text := (List.prefix_append ..).trans h.occurs

/-- What is found ends where something else that is found begins, or in front of that. -/
theorem Found.length_le (h : Found word text before) (short : earlier.length < before.length)
    (found : Found word text earlier) : earlier.length + word.length ≤ before.length := by
  rw [← List.length_append]
  exact (h.ended short found).length_le

theorem found_of_length_le (occurs : before ++ word <+: text)
    (ended : ∀ earlier, earlier.length < before.length → Found word text earlier →
      earlier.length + word.length ≤ before.length) : Found word text before := by
  rw [Found]
  refine ⟨occurs, fun earlier short found => ?_⟩
  have begins : before <+: text := (List.prefix_append ..).trans occurs
  apply List.prefix_of_prefix_length_le found.occurs begins
  rw [List.length_append]
  exact ended earlier short found

/-! ## One character after another -/

/-- The search stands behind `before`. What it has found so far ends within the next `skip` characters, and the last of
them are part of it. -/
structure Passing (word text before : Text) (skip : Nat) : Prop where
  ends : ∀ earlier, earlier.length < before.length → Found word text earlier →
    earlier.length + word.length ≤ before.length + skip
  within : 0 < skip → ∃ earlier, earlier.length < before.length ∧ Found word text earlier ∧
    earlier.length + word.length = before.length + skip

theorem passing_start : Passing word text [] 0 := ⟨fun _ short => absurd short (Nat.not_lt_zero _), by simp⟩

theorem Passing.not_found (h : Passing word text before (skip + 1)) : ¬Found word text before := by
  intro found
  obtain ⟨earlier, short, first, reaches⟩ := h.within (Nat.succ_pos skip)
  have ended := found.length_le short first
  omega

theorem Passing.found (h : Passing word text before 0) (occurs : before ++ word <+: text) : Found word text before :=
  found_of_length_le occurs h.ends

/-- What begins in front of the next place begins in front of this one or here. -/
theorem found_before_next (on : before ++ [c] <+: text) (found : Found word text earlier)
    (short : earlier.length < (before ++ [c]).length) : earlier.length < before.length ∨ earlier = before := by
  rcases Nat.lt_or_eq_of_le (Nat.le_of_lt_succ (by simpa using short)) with less | same
  · exact .inl less
  · have here : before <+: text := (List.prefix_append ..).trans on
    exact .inr ((List.prefix_of_prefix_length_le found.begins here (Nat.le_of_eq same)).eq_of_length same)

theorem Passing.ends_next {next : Nat} (h : Passing word text before skip) (on : before ++ [c] <+: text)
    (kept : skip ≤ next + 1) (here : Found word text before → word.length ≤ next + 1) (earlier : Text)
    (short : earlier.length < (before ++ [c]).length) (found : Found word text earlier) :
    earlier.length + word.length ≤ (before ++ [c]).length + next := by
  rw [List.length_append, List.length_singleton]
  rcases found_before_next on found short with less | rfl
  · have ends := h.ends earlier less found
    omega
  · have fits := here found
    omega

theorem Passing.inside (h : Passing word text before (skip + 1)) (on : before ++ [c] <+: text) :
    Passing word text (before ++ [c]) skip := by
  refine ⟨h.ends_next on (Nat.le_refl _) fun found => absurd found h.not_found, fun _ => ?_⟩
  obtain ⟨earlier, short, found, reaches⟩ := h.within (Nat.succ_pos skip)
  rw [List.length_append, List.length_singleton]
  exact ⟨earlier, by omega, found, by omega⟩

theorem Passing.missed (h : Passing word text before 0) (on : before ++ [c] <+: text)
    (absent : ¬Found word text before) : Passing word text (before ++ [c]) 0 :=
  ⟨h.ends_next on (Nat.zero_le _) fun found => absurd found absent, fun some_ => absurd some_ (Nat.lt_irrefl 0)⟩

theorem Passing.hit (h : Passing word text before 0) (on : before ++ [c] <+: text)
    (found : Found word text before) : Passing word text (before ++ [c]) (word.length - 1) := by
  refine ⟨h.ends_next on (Nat.zero_le _) fun _ => by omega, fun long => ⟨before, by simp, found, ?_⟩⟩
  rw [List.length_append, List.length_singleton]
  omega

/-- The word is found somewhere in the rest of a text, where it stands apart. -/
def FoundApart (word before rest : Text) : Prop :=
  ∃ more after, rest = more ++ (word ++ after) ∧ Found word (before ++ rest) (before ++ more) ∧
    Apart (before ++ more) after

theorem foundApart_cons : FoundApart word before (c :: rest) ↔
    (∃ after, c :: rest = word ++ after ∧ Found word (before ++ c :: rest) before ∧ Apart before after) ∨
      FoundApart word (before ++ [c]) rest := by
  have regroup (t : Text) : before ++ [c] ++ t = before ++ c :: t := List.append_cons before c t |>.symm
  constructor
  · rintro ⟨more, after, split, found, apart⟩
    cases more with
    | nil =>
      rw [List.append_nil] at found apart
      exact .inl ⟨after, split, found, apart⟩
    | cons d more =>
      obtain ⟨rfl, rest_⟩ := List.cons.inj split
      exact .inr ⟨more, after, rest_, by rwa [regroup, regroup], by rwa [regroup]⟩
  · rintro (⟨after, split, found, apart⟩ | ⟨more, after, rfl, found, apart⟩)
    · exact ⟨[], after, split, by rwa [List.append_nil], by rwa [List.append_nil]⟩
    · rw [regroup, regroup] at found
      rw [regroup] at apart
      exact ⟨c :: more, after, rfl, found, apart⟩

theorem foundApart_passed (absent : ¬Found word (before ++ c :: rest) before) :
    FoundApart word (before ++ [c]) rest ↔ FoundApart word before (c :: rest) := by
  rw [foundApart_cons]
  refine (or_iff_right ?_).symm
  rintro ⟨after, -, found, -⟩
  exact absent found

theorem foundApart_nil (h : Passing word before before skip) :
    FoundApart word before [] ↔ skip = 0 ∧ word = [] ∧ isWordBoundary before.getLast? = true := by
  rw [isWordBoundary_iff]
  constructor
  · rintro ⟨more, after, split, found, apart⟩
    obtain ⟨rfl, rfl, rfl⟩ : more = [] ∧ word = [] ∧ after = [] := by simpa using split.symm
    rw [List.append_nil] at found apart
    cases skip with
    | zero => exact ⟨rfl, rfl, apart.1⟩
    | succ skip => exact absurd found h.not_found
  · rintro ⟨rfl, rfl, boundary⟩
    refine ⟨[], [], rfl, ?_, ?_⟩
    · simpa using h.found (by simp)
    · exact ⟨by simpa using boundary, by simp⟩

/-- From any place on, the search looks for something that is found behind it and stands apart. -/
theorem wordOccurs_iff (h : Passing word (before ++ rest) before skip) :
    wordOccurs word skip before.getLast? rest = true ↔ FoundApart word before rest := by
  induction rest generalizing before skip with
  | nil =>
    rw [List.append_nil] at h
    rw [foundApart_nil h]
    simp [wordOccurs, and_assoc]
  | cons c rest ih =>
    have last : some c = (before ++ [c]).getLast? := by simp
    have whole : before ++ c :: rest = before ++ [c] ++ rest := List.append_cons ..
    have on : before ++ [c] <+: before ++ c :: rest := by
      rw [whole]
      exact List.prefix_append ..
    cases skip with
    | succ skip =>
      -- still within the occurrence found last
      have next := h.inside on
      rw [whole] at next
      rw [wordOccurs, last, ih next, foundApart_passed h.not_found]
    | zero =>
      cases occurs : after? word (c :: rest) with
      | none =>
        have absent : ¬Found word (before ++ c :: rest) before := by
          intro found
          obtain ⟨after, split⟩ := found.occurs
          rw [List.append_assoc, List.append_cancel_left_eq] at split
          rw [after?_eq_some_iff.2 split.symm] at occurs
          contradiction
        have next := h.missed on absent
        rw [whole] at next
        rw [wordOccurs]
        simp only [occurs]
        rw [last, ih next, foundApart_passed absent]
      | some following =>
        have split := after?_eq_some_iff.1 occurs
        have found : Found word (before ++ c :: rest) before :=
          h.found ⟨following, by rw [split, List.append_assoc]⟩
        have next := h.hit on found
        rw [whole] at next
        rw [wordOccurs]
        simp only [occurs, Bool.or_eq_true, Bool.and_eq_true, isWordBoundary_iff]
        rw [last, ih next, foundApart_cons]
        refine or_congr_left ⟨fun apart => ⟨following, split, found, apart⟩, ?_⟩
        rintro ⟨after, again, -, apart⟩
        rw [split, List.append_cancel_left_eq] at again
        rwa [again]

/-- What is looked for is an occurrence that stands apart and does not begin within one that was found before it. -/
theorem containsWord_iff : containsWord word text = true ↔
    ∃ before after, text = before ++ (word ++ after) ∧ Found word text before ∧ Apart before after :=
  wordOccurs_iff passing_start

theorem stands_of_containsWord (h : containsWord word text = true) : Stands word text := by
  obtain ⟨before, after, split, -, apart⟩ := containsWord_iff.1 h
  exact ⟨before, after, split, apart⟩

/-! ## Words that begin anew -/

/-- The word begins anew within itself, behind a character that is no word character, and goes on so to its end. -/
def Restarts (word : Text) : Prop :=
  ∃ front back, word = front ++ back ∧ front ≠ [] ∧ back ≠ [] ∧ back <+: word ∧
    ∀ c ∈ front.getLast?, isWordChar c = false

/-- An occurrence that begins inside of another one, behind no word character, makes the word begin anew. -/
theorem restarts_of_overlap (first : earlier ++ word <+: text) (second : before ++ word <+: text)
    (later : earlier.length < before.length) (inside : before.length < earlier.length + word.length)
    (boundary : ∀ c ∈ before.getLast?, isWordChar c = false) : Restarts word := by
  have here : before <+: text := (List.prefix_append ..).trans second
  obtain ⟨front, rfl⟩ : earlier <+: before :=
    List.prefix_of_prefix_length_le ((List.prefix_append ..).trans first) here (Nat.le_of_lt later)
  rw [List.length_append] at later inside
  have someFront : front ≠ [] := List.ne_nil_of_length_pos (by omega)
  obtain ⟨back, rfl⟩ : front <+: word := by
    have both := List.prefix_of_prefix_length_le here first (by simp only [List.length_append]; omega)
    exact (List.prefix_append_right_inj earlier).1 both
  have someBack : back ≠ [] := by
    rintro rfl
    simp at inside
  have again : back <+: front ++ back := by
    rw [← List.append_assoc] at first
    have both := List.prefix_of_prefix_length_le first second (by simp only [List.length_append]; omega)
    exact (List.prefix_append_right_inj (earlier ++ front)).1 both
  rw [List.getLast?_append_of_ne_nil _ someFront] at boundary
  exact ⟨front, back, rfl, someFront, someBack, again, boundary⟩

theorem containsWord_of_stands (whole : ¬Restarts word) (h : Stands word text) : containsWord word text = true := by
  obtain ⟨before, after, split, apart⟩ := h
  have occurs : before ++ word <+: text := ⟨after, by rw [split, List.append_assoc]⟩
  refine containsWord_iff.2 ⟨before, after, split, found_of_length_le occurs fun earlier short found => ?_, apart⟩
  by_contra reaches
  exact whole (restarts_of_overlap found.occurs occurs short (Nat.lt_of_not_le reaches) apart.1)

/-- A word that occurs both at the start of a text and one character further on has no other character. -/
theorem eq_of_shifted (h : word <+: c :: (word ++ rest)) : ∀ d ∈ word, d = c := by
  induction word generalizing c with
  | nil => simp
  | cons e word ih =>
    obtain ⟨rfl, more⟩ := List.cons_prefix_cons.1 h
    exact List.forall_mem_cons.2 ⟨rfl, ih more⟩

/-- Behind a word character the first occurrence counts for nothing, and a second one has no room behind it. -/
theorem containsWord_touched (touches : isWordChar c = true) (first : ¬word <+: c :: (word ++ rest))
    (short : rest.length < word.length) : containsWord word (c :: (word ++ rest)) = false := by
  have found : Found word (c :: (word ++ rest)) [c] := by
    refine found_of_length_le ⟨rest, by simp⟩ fun earlier less found => ?_
    obtain rfl := List.length_eq_zero_iff.1 (Nat.lt_one_iff.1 less)
    exact absurd found.occurs first
  rw [Bool.eq_false_iff, Ne, containsWord_iff]
  rintro ⟨before, after, split, taken, apart⟩
  have sizes := congrArg List.length split
  simp only [List.length_cons, List.length_append] at sizes
  match before with
  | [] => exact first taken.occurs
  | [d] =>
    obtain ⟨rfl, -⟩ := List.cons.inj split
    rw [apart.1 c rfl] at touches
    contradiction
  | d :: e :: before =>
    have ended := taken.length_le (by simp) found
    simp only [List.length_cons, List.length_nil] at ended sizes
    omega

/-- A word that begins anew occurs twice in some text of less than twice its length, the second time behind no word
character. -/
theorem Restarts.twice (h : Restarts word) : ∃ front rest, front ++ word = word ++ rest ∧ front ≠ [] ∧
    front <+: word ∧ rest.length < word.length ∧ ∀ c ∈ front.getLast?, isWordChar c = false := by
  obtain ⟨front, back, split, someFront, someBack, ⟨rest, again⟩, boundary⟩ := h
  have both : front ++ word = word ++ rest := by rw [← again, ← List.append_assoc, ← split, again]
  have sizes := congrArg List.length both
  have parts := congrArg List.length split
  have positive := List.length_pos_iff.2 someBack
  simp only [List.length_append] at sizes parts
  exact ⟨front, rest, both, someFront, ⟨back, split.symm⟩, by omega, boundary⟩

/-- Where a word begins anew, the search passes over the second beginning if a letter stands in front of the first. -/
theorem exists_missed (h : Restarts word) : ∃ text, Stands word text ∧ containsWord word text = false := by
  obtain ⟨front, rest, both, some_, begins, short, boundary⟩ := h.twice
  have last := List.getLast?_eq_some_getLast some_
  have first : ¬word <+: 'a' :: (word ++ rest) := by
    intro start
    rw [eq_of_shifted start _ (begins.subset (List.getLast_mem some_))] at last
    exact absurd (boundary 'a' last) (by decide)
  refine ⟨'a' :: (word ++ rest), ⟨'a' :: front, [], by simp [both], ?_, by simp⟩,
    containsWord_touched (by decide) first short⟩
  rwa [← List.singleton_append, List.getLast?_append_of_ne_nil _ some_]

/-- A word is found wherever it stands in a text, whatever the text, unless it begins anew. -/
theorem misses_nothing_iff : (∀ text, containsWord word text = true ↔ Stands word text) ↔ ¬Restarts word := by
  constructor
  · intro exact_ again
    obtain ⟨text, stands, missed⟩ := exists_missed again
    rw [(exact_ text).2 stands] at missed
    contradiction
  · exact fun whole text => ⟨stands_of_containsWord, containsWord_of_stands whole⟩

theorem not_restarts_of_wordChars (all : ∀ c ∈ word, isWordChar c = true) : ¬Restarts word := by
  rintro ⟨front, back, rfl, some_, -, -, boundary⟩
  have sharp := all _ (List.mem_append_left _ (List.getLast_mem some_))
  rw [boundary _ (List.getLast?_eq_some_getLast some_)] at sharp
  contradiction

/-! ## Spellings of a name -/

variable {name front back : Text}

theorem isWordChar_toLower (h : isWordChar c = true) : isWordChar c.toLower = true := by
  by_cases upper : c.isUpper = true
  · have letter : c.toLower.isAlpha = true := by
      rw [Char.isAlpha_toLower_eq_isAlpha, Char.isAlpha, upper, Bool.true_or]
    rw [isWordChar, Char.isAlphanum, letter]
    rfl
  · rwa [Char.toLower_eq_of_not_isUpper upper]

theorem kebabTail_append (a b : Text) : kebabTail (a ++ b) = kebabTail a ++ kebabTail b := by
  induction a with
  | nil => rfl
  | cons c a ih =>
    simp only [List.cons_append, kebabTail, ih]
    split <;> rfl

theorem kebabTail_capital (upper : c.isUpper = true) : kebabTail (c :: rest) = '-' :: kebab (c :: rest) := by
  rw [kebabTail, if_pos upper, kebab]

theorem kebab_capital (some_ : front ≠ []) (upper : c.isUpper = true) :
    kebab (front ++ c :: rest) = kebab front ++ '-' :: kebab (c :: rest) := by
  obtain ⟨d, front, rfl⟩ := List.exists_cons_of_ne_nil some_
  rw [List.cons_append, kebab, kebabTail_append, kebabTail_capital upper]
  rfl

/-- Where a hyphenated spelling is cut behind no word character, it is cut in front of a capital of the name. -/
theorem kebabTail_cut (all : ∀ c ∈ name, isWordChar c = true) (split : kebabTail name = front ++ back)
    (last : c ∈ front.getLast?) (sharp : isWordChar c = false) :
    ∃ a b, name = a ++ b ∧ b.head?.any Char.isUpper = true ∧ kebab b = back := by
  induction name generalizing front with
  | nil =>
    obtain ⟨rfl, -⟩ : front = [] ∧ back = [] := by simpa [kebabTail] using split
    simp at last
  | cons d name ih =>
    have here := all d (List.mem_cons_self ..)
    have further {more : Text} (split' : kebabTail name = more ++ back) (last' : c ∈ more.getLast?) :
        ∃ a b, d :: name = a ++ b ∧ b.head?.any Char.isUpper = true ∧ kebab b = back := by
      obtain ⟨a, b, rfl, capital, spelled⟩ := ih (fun c member => all c (List.mem_cons_of_mem d member)) split' last'
      exact ⟨d :: a, b, rfl, capital, spelled⟩
    by_cases upper : d.isUpper = true
    · rw [kebabTail_capital upper, kebab] at split
      match front with
      | [] => simp at last
      | [_] =>
        obtain ⟨-, rfl⟩ := List.cons.inj split
        exact ⟨[], d :: name, rfl, upper, rfl⟩
      | [_, _] =>
        obtain ⟨-, tail⟩ := List.cons.inj split
        obtain ⟨rfl, -⟩ := List.cons.inj tail
        have same : c = d.toLower := (Option.some.inj last).symm
        rw [same, isWordChar_toLower here] at sharp
        contradiction
      | _ :: _ :: e :: more =>
        obtain ⟨-, tail⟩ := List.cons.inj split
        obtain ⟨-, tail⟩ := List.cons.inj tail
        exact further tail (by simpa using last)
    · rw [kebabTail, if_neg upper] at split
      match front with
      | [] => simp at last
      | [_] =>
        obtain ⟨rfl, -⟩ := List.cons.inj split
        have same : c = d := (Option.some.inj last).symm
        rw [same, here] at sharp
        contradiction
      | _ :: e :: more =>
        obtain ⟨-, tail⟩ := List.cons.inj split
        exact further tail (by simpa using last)

/-- The hyphenated spelling of a name begins anew where what follows from one of its capitals on, but the first
character, is spelled as the name begins. -/
theorem restarts_kebab_iff (all : ∀ c ∈ name, isWordChar c = true) : Restarts (kebab name) ↔
    ∃ front back, name = front ++ back ∧ front ≠ [] ∧ back.head?.any Char.isUpper = true ∧
      kebab back <+: kebab name := by
  constructor
  · rintro ⟨front, back, split, someFront, -, again, boundary⟩
    match name, front with
    | [], _ => exact absurd (List.append_eq_nil_iff.1 split.symm).1 someFront
    | d :: name, [c] =>
      obtain ⟨rfl, -⟩ := List.cons.inj split
      have sharp := boundary d.toLower rfl
      rw [isWordChar_toLower (all d (List.mem_cons_self ..))] at sharp
      contradiction
    | d :: name, _ :: e :: front =>
      obtain ⟨-, tail⟩ := List.cons.inj split
      have last := List.getLast?_eq_some_getLast (List.cons_ne_nil e front)
      obtain ⟨a, b, rfl, capital, rfl⟩ := kebabTail_cut (fun c member => all c (List.mem_cons_of_mem d member)) tail
        last (boundary _ (by simpa using last))
      exact ⟨d :: a, b, rfl, by simp, capital, again⟩
  · rintro ⟨front, back, rfl, someFront, capital, again⟩
    match back with
    | c :: back =>
      have hyphen : isWordChar '-' = false := by decide
      refine ⟨kebab front ++ ['-'], kebab (c :: back), ?_, by simp, by simp [kebab], again, by simpa using hyphen⟩
      rw [kebab_capital someFront capital, List.append_assoc, List.singleton_append]

/-- A name is mentioned where one of its spellings is found. -/
theorem mentions_iff {text : Text} :
    mentions name text = true ↔ ∃ spelling ∈ [name, kebab name], containsWord spelling text = true := by
  by_cases same : kebab name = name
  · simp [mentions, same]
  · simp [mentions, same]

end ComponentLint.Text
