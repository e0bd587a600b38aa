import ComponentLint.Proofs.Json.Tokens
import ComponentLint.Proofs.Text.Split
import Mathlib.Data.List.Forall2

/-! A written value is read back: `document_pretty`. The reader of a list and that of an object are one loop, which
takes the written parts one after another. -/
namespace ComponentLint.Json

namespace Reading

variable {α : Type} {item : Reading α} {rest : Text}

/-! ## Parts with commas between them -/

/-- Reads items as long as one follows. -/
def loop (has : Bool → Reading Bool) (item : Reading α) (first : Bool) : Nat → Reading (List α)
  | 0 => return []
  | fuel + 1 => do
    if ← has first then
      let a ← item
      return a :: (← loop has item false fuel)
    else return []

theorem elementsLoop_eq (element : Reading α) (first : Bool) (fuel : Nat) :
    elementsLoop element first fuel = loop hasElement element first fuel := by
  induction fuel generalizing first with
  | zero => rfl
  | succ fuel ih => simp only [elementsLoop, loop, ih]

/-- A member with its key. -/
def member (value : Reading α) : Reading (Text × α) := do
  let k ← key
  colon
  let v ← value
  return (k, v)

theorem membersLoop_eq (value : Reading α) (first : Bool) (fuel : Nat) :
    membersLoop value first fuel = loop hasKey (member value) first fuel := by
  induction fuel generalizing first with
  | zero => rfl
  | succ fuel ih => simp only [membersLoop, loop, ih, member, bind_assoc, pure_bind]

/-- White space. -/
def IsBlank (t : Text) : Prop := ∀ c ∈ t, isSpace c = true

theorem isBlank_nil : IsBlank [] := by simp [IsBlank]

/-- Whether another item follows is seen from a comma and from the bracket that closes the parts. -/
structure Separates (has : Bool → Reading Bool) (close : Char) (suits : Text → Prop) : Prop where
  opens {line part rest : Text} : IsBlank line → suits part → Takes (has true) line (part ++ rest) true
  goesOn {line part rest : Text} : IsBlank line → suits part → Takes (has false) (',' :: line) (part ++ rest) true
  stops {line rest : Text} {first : Bool} : IsBlank line → Takes (has first) line (close :: rest) false

/-- A value starts so: with no space, and not with the bracket of the list around it. -/
def Starts (part : Text) : Prop := ∃ c more, part = c :: more ∧ isSpace c = false ∧ c ≠ ']'

theorem hasElement_separates : Separates hasElement ']' Starts := by
  constructor
  · rintro line - rest blank ⟨c, more, rfl, sharp, open_⟩
    refine (peekToken_takes blank (by simp [sharp])).last ?_
    rw [List.cons_append, List.head?_cons]
    split
    case h_2 same => exact absurd (Option.some.inj same) open_
    case h_1 same => exact absurd same (by simp)
    all_goals exact .pure true _
  · rintro line - rest blank ⟨c, more, rfl, sharp, open_⟩
    refine (peekToken_takes (t := []) (by simp) (by simp [isSpace])).look ?_
    refine (next_takes ',' _).bind ?_
    refine (peekToken_takes blank (by simp [sharp])).last ?_
    rw [List.cons_append, List.head?_cons]
    split
    case h_1 same => exact absurd (Option.some.inj same) open_
    case h_3 same => exact absurd same (by simp)
    exact .pure true _
  · intro line rest first blank
    refine (peekToken_takes blank (by simp [isSpace])).last ?_
    exact .pure false _

theorem hasKey_separates : Separates hasKey '\x7d' (∃ more, · = '"' :: more) := by
  constructor
  · rintro line - rest blank ⟨more, rfl⟩
    refine (peekToken_takes blank (by simp [isSpace])).last ?_
    exact .pure true _
  · rintro line - rest blank ⟨more, rfl⟩
    refine (peekToken_takes (t := []) (by simp) (by simp [isSpace])).look ?_
    refine (next_takes ',' _).bind ?_
    refine (peekToken_takes blank (by simp [isSpace])).last ?_
    exact .pure true _
  · intro line rest first blank
    refine (peekToken_takes blank (by simp [isSpace])).last ?_
    exact .pure false _

/-! ## The loop over parts -/

theorem ends_comma (t : Text) : Ends (',' :: t) := by
  rintro c same
  obtain rfl := Option.some.inj same
  decide

theorem ends_feed (t : Text) : Ends ('\n' :: t) := by
  rintro c same
  obtain rfl := Option.some.inj same
  decide

/-- What a part with a suitable start is read as, in front of anything that ends it. -/
def Stands (item : Reading α) (suits : Text → Prop) (part : Text) (a : α) : Prop :=
  suits part ∧ ∀ rest, Ends rest → Takes item part rest a

section Loop

variable {has : Bool → Reading Bool} {close : Char} {suits : Text → Prop} {line blanks : Text} {parts : List Text}
  {items : List α} {fuel : Nat}

/-- One more item and then the others, when the reader sees that it follows. -/
theorem loop_takes_item {first : Bool} {separator part t : Text} {a : α}
    (follows : Takes (has first) separator (part ++ (t ++ rest)) true) (stands : Stands item suits part a)
    (ends : Ends (t ++ rest)) (onward : Takes (loop has item false fuel) t rest items) :
    Takes (loop has item first (fuel + 1)) (separator ++ (part ++ t)) rest (a :: items) := by
  refine Takes.bind (by rwa [List.append_assoc]) ?_
  rw [if_pos rfl]
  refine (stands.2 _ ends).bind (onward.last ?_)
  exact .pure (a :: items) _

theorem ends_parts (t : Text) : Ends (parts.flatMap (',' :: line ++ ·) ++ '\n' :: blanks ++ t) := by
  cases parts with
  | nil => exact ends_feed _
  | cons part parts => exact ends_comma _

/-- The parts behind the first one, each behind a comma, and the blanks in front of the closing bracket. -/
theorem loop_takes_more (h : Separates has close suits) (before : IsBlank line) (behind : IsBlank ('\n' :: blanks))
    (stand : List.Forall₂ (Stands item suits) parts items) (enough : parts.length < fuel) :
    Takes (loop has item false fuel) (parts.flatMap (',' :: line ++ ·) ++ '\n' :: blanks) (close :: rest) items := by
  induction stand generalizing fuel with
  | nil =>
    obtain ⟨fuel, rfl⟩ := Nat.exists_eq_add_one_of_ne_zero (Nat.ne_zero_of_lt enough)
    refine (h.stops behind).last ?_
    exact .pure [] _
  | @cons part a parts items stands _ ih =>
    obtain ⟨fuel, rfl⟩ := Nat.exists_eq_add_one_of_ne_zero (Nat.ne_zero_of_lt enough)
    have left : parts.length < fuel := by simpa using enough
    have onward := ih left
    rw [List.flatMap_cons, List.append_assoc, List.append_assoc]
    exact loop_takes_item (h.goesOn before stands.1) stands (ends_parts _) onward

/-- The parts between two brackets, each behind a line break. -/
theorem loop_takes (h : Separates has close suits) (before : IsBlank line) (behind : IsBlank ('\n' :: blanks))
    {part : Text} {a : α} (stands : Stands item suits part a) (stand : List.Forall₂ (Stands item suits) parts items)
    (enough : parts.length + 1 < fuel) :
    Takes (loop has item true fuel) (line ++ (part ++ (parts.flatMap (',' :: line ++ ·) ++ '\n' :: blanks)))
      (close :: rest) (a :: items) := by
  obtain ⟨fuel, rfl⟩ := Nat.exists_eq_add_one_of_ne_zero (Nat.ne_zero_of_lt enough)
  exact loop_takes_item (h.opens before stands.1) stands (ends_parts _)
    (loop_takes_more h before behind stand (by omega))

/-- Brackets around parts are read by the loop and by what takes the closing one. -/
theorem bracketed_takes (h : Separates has close suits) {sequence : Reading (List α)} {finish : Reading Unit}
    (loops : sequence = do loop has item true (← room)) (closes : ∀ rest, Takes finish [close] rest ())
    (stand : List.Forall₂ (Stands item suits) parts items) (indent : Nat) (opening : Char) (rest : Text) :
    ∃ inner, bracketed indent opening close parts = opening :: inner ∧
      Takes (closedBy sequence finish) inner rest items := by
  have spaces (level : Nat) : IsBlank ('\n' :: List.replicate level ' ') := by
    intro c member
    rcases List.mem_cons.1 member with rfl | other
    · rfl
    · rw [List.eq_of_mem_replicate other]
      rfl
  subst loops
  cases stand with
  | nil =>
    refine ⟨[close], by simp [bracketed], Takes.closedBy (t := []) ?_ (closes rest)⟩
    refine (room_takes _).look ((h.stops isBlank_nil).last ?_)
    exact .pure [] _
  | @cons part a parts items stands others =>
    let line : Text := '\n' :: List.replicate (2 * (indent + 1)) ' '
    let blanks : Text := List.replicate (2 * indent) ' '
    have text : bracketed indent opening close (part :: parts) =
        opening :: (line ++ (part ++ (parts.flatMap (',' :: line ++ ·) ++ '\n' :: blanks)) ++ [close]) := by
      simp [bracketed, Text.join_cons, List.flatMap_map, line, blanks]
    -- the room that is counted beforehand is enough, for no part is empty
    have few : parts.length ≤ (parts.flatMap (',' :: line ++ ·)).length := length_le_flatMap (by simp)
    refine ⟨_, text, Takes.closedBy ((room_takes _).look ?_) (closes rest)⟩
    refine loop_takes h (spaces _) (spaces _) stands others ?_
    rw [List.length_append, List.length_append, List.length_append, List.length_append, List.length_cons]
    omega

end Loop

theorem endList_takes (rest : Text) : Takes endList [']'] rest () := fun _ => ⟨_, rfl⟩

theorem endObject_takes (rest : Text) : Takes endObject ['\x7d'] rest () := fun _ => ⟨_, rfl⟩

theorem key_takes (k rest : Text) : Takes key (written k) rest k := (next_takes '"' _).bind (string_takes k rest)

theorem colon_takes (rest : Text) : Takes colon [':'] rest () := fun _ => ⟨_, rfl⟩

/-- A key, a colon, and the value behind a space. -/
theorem member_takes (k : Text) {reader : Reading α} {t : Text} {a : α} (taken : Takes reader (' ' :: t) rest a) :
    Takes (member reader) (written k ++ ": ".toList ++ t) rest (k, a) := by
  rw [List.append_assoc]
  refine (key_takes k _).bind ((colon_takes _).bind (t := [':']) (taken.last ?_))
  exact .pure (k, a) rest

end Reading

/-! ## Values -/

/-- Whole numbers below `2 ^ 64` are the only ones, and so many levels hold the value. -/
inductive Value.Fits : Nat → Value → Prop where
  | null : Fits (levels + 1) .null
  | bool : Fits (levels + 1) (.bool b)
  | number : n < Nat.pow 2 64 → Fits (levels + 1) (.number (.natural n))
  | string : Fits (levels + 1) (.string s)
  | list : (∀ v ∈ items, Fits (levels + 1) v) → Fits (levels + 2) (.list items)
  | object : (∀ member ∈ members, Fits (levels + 1) member.2) → Fits (levels + 2) (.object members)

theorem prettyItems_eq (indent : Nat) (items : List Value) : prettyItems indent items = items.map (·.pretty indent) := by
  induction items with
  | nil => rfl
  | cons v rest ih => rw [prettyItems, ih, List.map_cons]

theorem prettyMembers_eq (indent : Nat) (members : List (Text × Value)) :
    prettyMembers indent members = members.map fun (k, v) => written k ++ ": ".toList ++ v.pretty indent := by
  induction members with
  | nil => rfl
  | cons member rest ih => rw [prettyMembers, ih, List.map_cons]

namespace Reading

variable {blank rest : Text} {v : Value} {levels n : Nat} {c : Char}

theorem scalar?_digit (digit : c.isDigit = true) : scalar? c = some (do return .number (← number true)) := by
  rw [scalar?.eq_def]
  split
  case h_6 => rw [if_pos digit]
  all_goals exact absurd digit (by decide)

theorem written_natural (n : Nat) : (Number.natural n).written = Nat.toDigits 10 n := Nat.toList_repr

/-- A natural number is written with a digit in front. -/
theorem exists_digits (n : Nat) : ∃ c more, (Number.natural n).written = c :: more ∧ c.isDigit = true := by
  rw [written_natural]
  cases digits : Nat.toDigits 10 n with
  | nil => exact absurd digits Nat.toDigits_ne_nil
  | cons c more =>
    have member : c ∈ Nat.toDigits 10 n := by simp [digits]
    exact ⟨c, more, rfl, Nat.isDigit_of_mem_toDigits (by decide) (by decide) member⟩

/-- No scalar starts with a space or a bracket. -/
theorem scalar?_sharp {reader : Reading Value} (ahead : scalar? c = some reader) :
    isSpace c = false ∧ c ≠ '[' ∧ c ≠ ']' ∧ c ≠ '\x7b' := by
  have other {d : Char} (none_ : scalar? d = none) : c ≠ d := by
    rintro rfl
    rw [none_] at ahead
    contradiction
  have space : c ≠ ' ' := other rfl
  have feed : c ≠ '\n' := other rfl
  have tab : c ≠ '\t' := other rfl
  have return_ : c ≠ '\r' := other rfl
  exact ⟨by simp [isSpace, space, feed, tab, return_], other rfl, other rfl, other rfl⟩

theorem pretty_starts (fits : v.Fits n) (indent : Nat) : Starts (v.pretty indent) := by
  cases fits with
  | null => exact ⟨'n', _, rfl, rfl, by decide⟩
  | @bool _ b =>
    cases b with
    | false => exact ⟨'f', _, rfl, rfl, by decide⟩
    | true => exact ⟨'t', _, rfl, rfl, by decide⟩
  | @number n _ small =>
    obtain ⟨c, more, digits, digit⟩ := exists_digits n
    obtain ⟨sharp, -, close, -⟩ := scalar?_sharp (scalar?_digit digit)
    exact ⟨c, more, digits, sharp, close⟩
  | string => exact ⟨'"', _, rfl, rfl, by decide⟩
  | @list items _ each =>
    rw [Value.pretty, bracketed]
    split <;> exact ⟨'[', _, rfl, rfl, by decide⟩
  | @object members _ each =>
    rw [Value.pretty, bracketed]
    split <;> exact ⟨'\x7b', _, rfl, rfl, by decide⟩

/-- Blanks in front of a scalar are passed. -/
theorem value_takes_scalar {reader : Reading Value} {more : Text} (white : IsBlank blank)
    (ahead : scalar? c = some reader) (taken : Takes reader (c :: more) rest v) :
    Takes (value (levels + 1)) (blank ++ c :: more) rest v := by
  obtain ⟨sharp, list, -, object⟩ := scalar?_sharp ahead
  refine Takes.placed (Takes.bind (peekToken_takes white (by simp [sharp])) ?_)
  rw [List.cons_append, List.head?_cons]
  split
  case h_1 same => exact absurd same (by simp)
  case h_2 same => exact absurd (Option.some.inj same) list
  case h_3 same => exact absurd (Option.some.inj same) object
  case h_4 same =>
    obtain rfl := Option.some.inj same
    rw [ahead]
    exact taken

/-- A value that is written in front of something that ends it is read back, whatever blanks stand before it: a member
has one behind its colon, an element none. -/
theorem value_takes (fits : v.Fits n) (white : IsBlank blank) (indent : Nat) (ends : Ends rest) :
    Takes (value n) (blank ++ v.pretty indent) rest v := by
  induction fits generalizing blank indent rest with
  | null =>
    refine value_takes_scalar white rfl ((next_takes 'n' _).bind (t := ['n']) ?_)
    exact (literal_takes _ _).last (.pure Value.null _)
  | @bool _ b =>
    cases b with
    | false =>
      refine value_takes_scalar white rfl ((next_takes 'f' _).bind (t := ['f']) ?_)
      exact (literal_takes _ _).last (.pure (Value.bool false) _)
    | true =>
      refine value_takes_scalar white rfl ((next_takes 't' _).bind (t := ['t']) ?_)
      exact (literal_takes _ _).last (.pure (Value.bool true) _)
  | @number n _ small =>
    obtain ⟨c, more, digits, digit⟩ := exists_digits n
    rw [Value.pretty, digits]
    refine value_takes_scalar white (scalar?_digit digit) ?_
    rw [← digits, written_natural]
    exact (number_takes small ends).last (.pure (Value.number (.natural n)) _)
  | @string _ s =>
    refine value_takes_scalar white rfl ((next_takes '"' _).bind (t := ['"']) ?_)
    exact (string_takes s _).last (.pure (Value.string s) _)
  | @list items levels each ih =>
    have stand : List.Forall₂ (Stands (value (levels + 1)) Starts) (items.map (·.pretty (indent + 1))) items := by
      rw [List.forall₂_map_left_iff, List.forall₂_same]
      exact fun v member => ⟨pretty_starts (each v member) _, fun rest ends =>
        ih v member isBlank_nil (indent + 1) ends⟩
    have loops : elements (value (levels + 1)) = (do loop hasElement (value (levels + 1)) true (← room)) := by
      simp only [elements, elementsLoop_eq]
    obtain ⟨inner, text, taken⟩ := bracketed_takes hasElement_separates loops endList_takes stand indent '[' rest
    rw [Value.pretty, prettyItems_eq, text]
    refine Takes.placed (Takes.bind (peekToken_takes white (by simp [isSpace])) ?_)
    change Takes (if levels + 1 = 0 then _ else _) _ _ _
    rw [if_neg (by omega)]
    exact (next_takes '[' _).bind (t := ['[']) (taken.last (.pure (Value.list items) _))
  | @object members levels each ih =>
    have stand : List.Forall₂ (Stands (member (value (levels + 1))) (∃ more, · = '"' :: more))
        (members.map fun (k, v) => written k ++ ": ".toList ++ v.pretty (indent + 1)) members := by
      rw [List.forall₂_map_left_iff, List.forall₂_same]
      rintro ⟨k, v⟩ among
      refine ⟨⟨_, rfl⟩, fun rest ends => ?_⟩
      have space : IsBlank [' '] := by simp [IsBlank, isSpace]
      exact member_takes k (ih (k, v) among space (indent + 1) ends)
    have loops : Reading.members (value (levels + 1)) =
        (do loop hasKey (member (value (levels + 1))) true (← room)) := by
      simp only [Reading.members, membersLoop_eq]
    obtain ⟨inner, text, taken⟩ := bracketed_takes hasKey_separates loops endObject_takes stand indent '\x7b' rest
    rw [Value.pretty, prettyMembers_eq, text]
    refine Takes.placed (Takes.bind (peekToken_takes white (by simp [isSpace])) ?_)
    change Takes (if levels + 1 = 0 then _ else _) _ _ _
    rw [if_neg (by omega)]
    exact (next_takes '\x7b' _).bind (t := ['\x7b']) (taken.last (.pure (Value.object members) _))

theorem document_of_takes {α : Type} {reader : Reading α} {t : Text} {a : α} (taken : Takes reader t [] a) :
    document reader t = .ok a := by
  have closes : Takes finish [] [] () := fun _ => ⟨_, rfl⟩
  have whole : Takes (do let a ← reader; finish; return a) t [] a :=
    taken.last (closes.last (f := fun _ => Pure.pure a) (.pure a []))
  obtain ⟨place, read⟩ := whole ⟨1, 0⟩
  rw [List.append_nil] at read
  rw [document, Cursor.start, read]

/-- A written value is the document that is read as it. -/
theorem document_pretty (fits : v.Fits n) : document (value n) (v.pretty 0) = .ok v :=
  document_of_takes (value_takes fits isBlank_nil 0 (by simp [Ends]))

end Reading

end ComponentLint.Json
