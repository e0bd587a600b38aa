import ComponentLint.Proofs.Json.Taking

/-! Written strings and numbers are read back. -/
namespace ComponentLint.Json.Reading

variable {t rest : Text}

/-! ## Strings -/

theorem hexEscape_takes {a b c d : Nat} (size : Text.byteSize t = 4) (values : t.mapM hexValue = some [a, b, c, d]) :
    Takes hexEscape t rest (((a * 16 + b) * 16 + c) * 16 + d) := by
  have enough : ¬ Text.byteSize (t ++ rest) < 4 := by
    rw [Text.byteSize_append]
    omega
  have four := takeBytes_takes t rest
  rw [size] at four
  intro place
  change ∃ place', (if Text.byteSize (t ++ rest) < 4 then _ else _ : Reading Nat) ⟨t ++ rest, place⟩ = _
  rw [if_neg enough]
  refine four.last ?_ place
  rw [values]
  exact .pure _ rest

/-- A control character is written by four hexadecimal digits. -/
theorem control_digits : ∀ n < 0x20,
    let digits := List.replicate (4 - (Nat.toDigits 16 n).length) '0' ++ Nat.toDigits 16 n
    Text.byteSize digits = 4 ∧ digits.mapM hexValue = some [0, 0, n / 16, n % 16] := by
  decide

/-- A character is written as it is, or as a backslash and an escape that stands for it. -/
theorem escaped_cases (c : Char) :
    (escaped c = [c] ∧ c ≠ '"' ∧ c ≠ '\\' ∧ ¬ c.toNat < 0x20) ∨
      ∃ more, escaped c = '\\' :: more ∧ ∀ rest, Takes escape more rest c := by
  rw [escaped.eq_def]
  split
  case h_8 quote backslash _ _ _ _ _ =>
    by_cases control : c.toNat < 0x20
    · right
      rw [if_pos control]
      obtain ⟨size, values⟩ := control_digits c.toNat control
      refine ⟨_, rfl, fun rest => (next_takes 'u' _).bind ?_⟩
      have code : ((0 * 16 + 0) * 16 + c.toNat / 16) * 16 + c.toNat % 16 = c.toNat := by omega
      refine (hexEscape_takes size values).last ?_
      rw [code, if_neg (by simp; omega), if_neg (by simp; omega), Char.ofNat_toNat]
      exact .pure c rest
    · left
      rw [if_neg control]
      exact ⟨rfl, quote, backslash, control⟩
  all_goals exact .inr ⟨_, rfl, fun rest place => ⟨_, rfl⟩⟩

theorem stringLoop_takes (s : Text) {fuel : Nat} (enough : s.length < fuel) (read rest : Text) :
    Takes (stringLoop fuel read) (s.flatMap escaped ++ ['"']) rest (read.reverse ++ s) := by
  induction s generalizing fuel read with
  | nil =>
    obtain ⟨fuel, rfl⟩ := Nat.exists_eq_add_one_of_ne_zero (Nat.ne_zero_of_lt enough)
    rw [List.append_nil, List.flatMap_nil, List.nil_append]
    refine Takes.bind (u := []) (next_takes '"' rest) ?_
    exact .pure read.reverse rest
  | cons c s ih =>
    obtain ⟨fuel, rfl⟩ := Nat.exists_eq_add_one_of_ne_zero (Nat.ne_zero_of_lt enough)
    have left : s.length < fuel := by simpa using enough
    have onward := ih left (c :: read)
    rw [List.reverse_cons, List.append_assoc, List.singleton_append] at onward
    rw [List.flatMap_cons, List.append_assoc, stringLoop]
    rcases escaped_cases c with ⟨plain, quote, backslash, shown⟩ | ⟨more, written, stands⟩
    · rw [plain]
      refine (next_takes c _).bind ?_
      split
      case h_4 d _ _ same =>
        obtain rfl := Option.some.inj same
        rw [if_neg shown]
        exact onward
      all_goals simp_all
    · rw [written]
      refine (next_takes '\\' _).bind ?_
      exact (stands _).bind onward

/-- What is written for a text, behind the first quote, is read as the text. -/
theorem string_takes (s rest : Text) : Takes string (s.flatMap escaped ++ ['"']) rest s := by
  refine (room_takes _).look (stringLoop_takes s ?_ [] rest)
  have size : s.length ≤ (s.flatMap escaped).length := length_le_flatMap fun c _ => by
    rcases escaped_cases c with ⟨plain, -⟩ | ⟨more, written, -⟩
    · simp [plain]
    · simp [written]
  simp only [List.length_append]
  omega

/-! ## Numbers -/

/-- What may follow a number. -/
def Ends (rest : Text) : Prop := ∀ c, rest.head? = some c → c.isDigit = false ∧ c ≠ '.' ∧ c ≠ 'e' ∧ c ≠ 'E'

theorem digitsLoop_takes {ds : Text} (all : ∀ c ∈ ds, c.isDigit = true) {fuel : Nat} (enough : ds.length < fuel)
    (read : List Nat) (ends : Ends rest) :
    Takes (digitsLoop fuel read) ds rest (read.reverse ++ ds.map fun c => c.toNat - '0'.toNat) := by
  induction ds generalizing fuel read with
  | nil =>
    obtain ⟨fuel, rfl⟩ := Nat.exists_eq_add_one_of_ne_zero (Nat.ne_zero_of_lt enough)
    refine (peek_takes rest).look ?_
    simp only [List.map_nil, List.append_nil]
    cases following : rest.head? with
    | none => exact .pure read.reverse rest
    | some c =>
      dsimp only
      rw [if_neg (by simp [(ends c following).1])]
      exact .pure read.reverse rest
  | cons c ds ih =>
    obtain ⟨fuel, rfl⟩ := Nat.exists_eq_add_one_of_ne_zero (Nat.ne_zero_of_lt enough)
    refine (peek_takes _).look ?_
    dsimp only [List.cons_append, List.head?_cons]
    rw [if_pos (all c (by simp))]
    have left : ds.length < fuel := by simpa using enough
    have onward := ih (fun d member => all d (by simp [member])) left ((c.toNat - '0'.toNat) :: read)
    rw [List.reverse_cons, List.append_assoc, List.singleton_append] at onward
    exact (next_takes c _).bind onward

theorem digits_takes {ds : Text} (all : ∀ c ∈ ds, c.isDigit = true) (ends : Ends rest) :
    Takes digits ds rest (ds.map fun c => c.toNat - '0'.toNat) := by
  refine (room_takes _).look (digitsLoop_takes all ?_ [] ends)
  simp only [List.length_append]
  omega

/-- No number but zero is written with a zero in front. -/
theorem eq_nil_of_toDigits {n : Nat} {ds : Text} (h : Nat.toDigits 10 n = '0' :: ds) : ds = [] := by
  induction n using Nat.strongRecOn generalizing ds with
  | ind n ih =>
    rw [Nat.toDigits_eq_if (by decide)] at h
    split at h
    · exact (List.cons.inj h).2.symm
    · cases front : Nat.toDigits 10 (n / 10) with
      | nil => exact absurd front Nat.toDigits_ne_nil
      | cons d more =>
        rw [front, List.cons_append] at h
        obtain ⟨rfl, -⟩ := List.cons.inj h
        have zero : n / 10 = 0 := by
          rw [← Nat.ofDigitChars_ten_toDigits (n := n / 10), front, ih (n / 10) (by omega) front]
          rfl
        omega

theorem number_takes {n : Nat} (small : n < Nat.pow 2 64) (ends : Ends rest) :
    Takes (number true) (Nat.toDigits 10 n) rest (.natural n) := by
  have all : ∀ c ∈ Nat.toDigits 10 n, c.isDigit = true := fun c member =>
    Nat.isDigit_of_mem_toDigits (by decide) (by decide) member
  cases split : Nat.toDigits 10 n with
  | nil => exact absurd split Nat.toDigits_ne_nil
  | cons d ds =>
    rw [split] at all
    have value : ((d :: ds).map fun c => c.toNat - '0'.toNat).foldl (fun n d => n * 10 + d) 0 = n := by
      rw [← Nat.ofDigitChars_ten_toDigits (n := n), split, Nat.ofDigitChars_eq_foldl, List.foldl_map]
      simp only [Nat.mul_comm 10]
    rw [List.map_cons] at value
    refine (next_takes d _).bind ?_
    have digit : d.isDigit = true := all d (by simp)
    change Takes (if (!d.isDigit) = true then _ else _) ds rest _
    rw [if_neg (by simp [digit])]
    refine (peek_takes _).look ?_
    have single : d = '0' → ds = [] := by
      rintro rfl
      exact eq_nil_of_toDigits split
    have more : Takes (if d = '0' then Pure.pure [] else digits) ds rest (ds.map fun c => c.toNat - '0'.toNat) := by
      split
      · rename_i zero
        rw [single zero]
        exact .pure [] rest
      · exact digits_takes (fun c member => all c (by simp [member])) ends
    rw [if_neg ?leading]
    case leading =>
      rw [Bool.and_eq_true, decide_eq_true_eq]
      rintro ⟨zero, any⟩
      rw [single zero, List.nil_append, Option.any_eq_true] at any
      obtain ⟨c, following, isDigit⟩ := any
      simp [(ends c following).1] at isDigit
    refine more.choice ((peek_takes rest).look ?_)
    rw [if_neg fun point => (ends '.' point).2.1 rfl, if_neg ?power]
    case power =>
      rw [Bool.or_eq_true, decide_eq_true_eq, decide_eq_true_eq]
      rintro (small | large)
      · exact (ends 'e' small).2.2.1 rfl
      · exact (ends 'E' large).2.2.2 rfl
    dsimp only
    rw [if_pos rfl, value, if_pos small]
    exact .pure (Number.natural n) rest

end ComponentLint.Json.Reading
