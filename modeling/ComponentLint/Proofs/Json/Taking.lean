import ComponentLint.Json.Printer

/-! What readers take. A reader takes a text in front of a rest if it gives a value and leaves the rest, wherever it
stands; readers one after another take their texts one after another. -/
namespace ComponentLint.Json.Reading

variable {α β : Type} {reader : Reading α} {t u rest : Text} {a : α} {b : β}

/-- In front of the rest the reader takes the text, and gives the value. -/
def Takes (reader : Reading α) (t rest : Text) (a : α) : Prop :=
  ∀ place, ∃ place', reader ⟨t ++ rest, place⟩ = .ok a ⟨rest, place'⟩

theorem Takes.pure (a : α) (rest : Text) : Takes (pure a : Reading α) [] rest a := fun place => ⟨place, rfl⟩

theorem Takes.bind {f : α → Reading β} (first : Takes reader t (u ++ rest) a) (second : Takes (f a) u rest b) :
    Takes (reader >>= f) (t ++ u) rest b := by
  intro place
  obtain ⟨middle, now⟩ := first place
  obtain ⟨place', later⟩ := second middle
  refine ⟨place', ?_⟩
  rw [List.append_assoc]
  change EStateM.bind reader f _ = _
  rw [EStateM.bind, now]
  exact later

/-- A reader that takes nothing goes before one that takes the text. -/
theorem Takes.look {f : α → Reading β} (first : Takes reader [] (t ++ rest) a) (second : Takes (f a) t rest b) :
    Takes (reader >>= f) t rest b := Takes.bind first second

/-- A reader that takes nothing goes after one that takes the text. -/
theorem Takes.last {f : α → Reading β} (first : Takes reader t rest a) (second : Takes (f a) [] rest b) :
    Takes (reader >>= f) t rest b := by
  have both := Takes.bind (u := []) first second
  rwa [List.append_nil] at both

/-- Two readers with one continuation take what the chosen one takes, and then what the continuation takes. -/
theorem Takes.choice {p : Prop} [Decidable p] {other : Reading α} {f : α → Reading β}
    (first : Takes (if p then reader else other) t rest a) (second : Takes (f a) [] rest b) :
    Takes (if p then reader >>= f else other >>= f) t rest b := by
  split
  · exact Takes.last (by rwa [if_pos ‹p›] at first) second
  · exact Takes.last (by rwa [if_neg ‹¬ p›] at first) second

theorem Takes.placed (h : Takes reader t rest a) : Takes (placed reader) t rest a := by
  intro place
  obtain ⟨place', taken⟩ := h place
  exact ⟨place', by rw [Reading.placed, taken]⟩

theorem Takes.closedBy {close : Reading Unit} (h : Takes reader t (u ++ rest) a) (closes : Takes close u rest ()) :
    Takes (closedBy reader close) (t ++ u) rest a := by
  intro place
  obtain ⟨middle, now⟩ := h place
  obtain ⟨place', later⟩ := closes middle
  exact ⟨place', by rw [List.append_assoc, Reading.closedBy, now]; dsimp only; rw [later]⟩

/-! ## Characters and blanks -/

theorem peek_takes (rest : Text) : Takes peek [] rest rest.head? := fun place => ⟨place, rfl⟩

theorem next_takes (c : Char) (rest : Text) : Takes next [c] rest (some c) := fun _ => ⟨_, rfl⟩

theorem room_takes (rest : Text) : Takes room [] rest (rest.length + 1) := fun place => ⟨place, rfl⟩

/-- White space is passed up to the first character that is none. -/
theorem peekToken_takes (blank : ∀ c ∈ t, isSpace c = true) (sharp : ∀ c, rest.head? = some c → isSpace c = false) :
    Takes peekToken t rest rest.head? := by
  have skips : ∀ place, ∃ place', skipSpaceIn place (t ++ rest) = ⟨rest, place'⟩ := by
    induction t with
    | nil =>
      intro place
      cases rest with
      | nil => exact ⟨place, rfl⟩
      | cons c rest => exact ⟨place, by rw [List.nil_append, skipSpaceIn, if_neg (by simp [sharp c rfl])]⟩
    | cons c t ih =>
      intro place
      obtain ⟨place', skipped⟩ := ih (fun d member => blank d (by simp [member])) (Cursor.behind place c)
      exact ⟨place', by rw [List.cons_append, skipSpaceIn, if_pos (blank c (by simp)), skipped]⟩
  intro place
  obtain ⟨place', skipped⟩ := skips place
  refine ⟨place', ?_⟩
  change EStateM.Result.ok (skipSpaceIn place (t ++ rest)).rest.head? (skipSpaceIn place (t ++ rest)) = _
  rw [skipped]

theorem literal_takes (t rest : Text) : Takes (literal t) t rest () := by
  induction t with
  | nil => exact .pure () rest
  | cons c t ih =>
    refine Takes.bind (next_takes c (t ++ rest)) ?_
    dsimp only
    rw [if_pos rfl]
    exact ih

/-! ## Room -/

/-- Parts that are not empty are no more than the characters of all. -/
theorem length_le_flatMap {parts : List α} {f : α → Text} (some_ : ∀ part ∈ parts, f part ≠ []) :
    parts.length ≤ (parts.flatMap f).length := by
  induction parts with
  | nil => simp
  | cons part parts ih =>
    have positive := List.length_pos_iff.2 (some_ part (by simp))
    have others := ih fun other member => some_ other (by simp [member])
    simp only [List.length_cons, List.flatMap_cons, List.length_append]
    omega

theorem takeBytes_takes (t rest : Text) : Takes (takeBytes t.byteSize) t rest t := by
  induction t with
  | nil =>
    rw [Text.byteSize_nil, takeBytes]
    exact .pure [] rest
  | cons c t ih =>
    have some_ : Text.byteSize (c :: t) ≠ 0 := by
      have positive := Char.utf8Size_pos c
      rw [Text.byteSize_cons]
      omega
    obtain ⟨n, size⟩ := Nat.exists_eq_add_one_of_ne_zero some_
    have left : n + 1 - c.utf8Size = Text.byteSize t := by
      rw [← size, Text.byteSize_cons]
      omega
    rw [size, takeBytes]
    refine Takes.bind (next_takes c (t ++ rest)) ?_
    dsimp only
    rw [left]
    have onward := ih.bind (f := fun more => Pure.pure (c :: more)) (.pure (c :: t) rest)
    rwa [List.append_nil] at onward

end ComponentLint.Json.Reading
