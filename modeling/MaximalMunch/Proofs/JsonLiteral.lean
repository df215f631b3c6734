import MaximalMunch.Json.Codec

/-!
# Literals

What is written for a string or an integer is one of its literals, and every literal is read as what it stands
for.

- `Json.literalOf_text`, `Json.integerOf_literal` : writing
- `LiteralOf.exists_parts`  : a string literal is read as parts that have its text, by induction on the literal
- `Json.Delimited`          : text that does not go on with a number
- `IntegerOf.number_eq`     : an integer is read if the text behind it is delimited
-/

namespace MaximalMunch

namespace Json

/-! ## Strings -/

/-- A character is written with a short escape, or by its number, or as it is. -/
theorem literalChar_cases (c : Char) :
    (∃ e, literalChar c = ['\\', e] ∧ e ≠ 'u' ∧ shortEscape? e = some c) ∨
      (c < ' ' ∧ literalChar c = unitEscape c.toNat) ∨
      (c ≠ '"' ∧ c ≠ '\\' ∧ ¬ c < ' ' ∧ literalChar c = [c]) := by
  unfold literalChar
  split
  case h_8 hquote hbackslash _ _ _ _ _ =>
    split
    · rename_i hcontrol
      exact Or.inr (Or.inl ⟨hcontrol, rfl⟩)
    · rename_i hplain
      exact Or.inr (Or.inr ⟨hquote, hbackslash, hplain, rfl⟩)
  all_goals exact Or.inl ⟨_, rfl, by decide, rfl⟩

/-- The number of a control character has two digits. -/
theorem unitEscape_control : ∀ n < 32, unitEscape n =
    ['\\', 'u', '0', '0', Nat.digitChar (n / 16), Nat.digitChar (n % 16)] := by decide

theorem unit?_control : ∀ n < 32, unit? '0' '0' (Nat.digitChar (n / 16)) (Nat.digitChar (n % 16)) =
    some (.unit (UInt16.ofNat n)) := by decide

/-- What is written for a character stands for it. -/
theorem literalOf_literalChar (c : Char) {body cs : List Char} (h : LiteralOf body cs) :
    LiteralOf (literalChar c ++ body) (c :: cs) := by
  rcases literalChar_cases c with ⟨e, hc, -, hshort⟩ | ⟨hcontrol, hc⟩ | ⟨hquote, hbackslash, hplain, hc⟩
  · rw [hc]
    exact .short hshort h
  · have hlt : c.toNat < 32 := hcontrol
    have hnat : (UInt16.ofNat c.toNat).toNat = c.toNat :=
      UInt16.toNat_ofNat_of_lt' (Nat.lt_trans hlt (by decide))
    have hl : isLeading (UInt16.ofNat c.toNat) = false := by
      simp only [isLeading, UInt16.le_iff_toNat_le, hnat, UInt16.reduceToNat, decide_eq_false_iff_not]
      omega
    have ht : isTrailing (UInt16.ofNat c.toNat) = false := by
      simp only [isTrailing, UInt16.le_iff_toNat_le, hnat, UInt16.reduceToNat, decide_eq_false_iff_not]
      omega
    have hnumber := LiteralOf.number (unit?_control c.toNat hlt) hl ht h
    rw [hnat, Char.ofNat_toNat] at hnumber
    rw [hc, unitEscape_control c.toNat hlt]
    exact hnumber
  · rw [hc]
    exact .plain hquote hbackslash hplain h

/-- What is written for a text stands for it. -/
theorem literalOf_text (cs : List Char) : LiteralOf (cs.flatMap literalChar) cs := by
  induction cs with
  | nil =>
      exact .nil
  | cons c cs ih =>
      exact literalOf_literalChar c ih

theorem literal_partsOf (s : String) : literal (partsOf s) = '"' :: s.toList.flatMap literalChar ++ ['"'] := by
  simp [literal, partsOf, List.flatMap_map, literalPart]

theorem stringText_eq (s : String) :
    stringText s = String.ofList ('"' :: s.toList.flatMap literalChar ++ ['"']) := by
  rw [stringText, literal_partsOf]

/-- A code unit that is no half of a pair is a character of its own. -/
theorem characters?_unit {u : UInt16} (hl : isLeading u = false) (ht : isTrailing u = false)
    (ps : List TextPart) : characters? (.unit u :: ps) = (characters? ps).map (Char.ofNat u.toNat :: ·) := by
  cases ps with
  | nil =>
      simp [characters?, hl, ht]
  | cons p ps =>
      cases p <;> simp [characters?, hl, ht]

/-- No short escape has the letter of those by number. -/
theorem ne_of_shortEscape? {e c : Char} (h : shortEscape? e = some c) : e ≠ 'u' := by
  rintro rfl
  exact absurd h (by simp [shortEscape?])

/-- A literal is read up to its end as parts that have its text. -/
theorem LiteralOf.exists_parts {body cs : List Char} (h : LiteralOf body cs) (rest : List Char) :
    ∃ ps, literalBody (body ++ '"' :: rest) = some (ps, rest) ∧ characters? ps = some cs := by
  induction h with
  | nil =>
      exact ⟨[], rfl, rfl⟩
  | @plain c body cs hquote hbackslash hplain _ ih =>
      obtain ⟨ps, hps, hcs⟩ := ih
      refine ⟨.char c :: ps, ?_, by simp [characters?, hcs]⟩
      rw [List.cons_append, literalBody]
      · simp [hbackslash, hplain, hps, consPart]
      · exact hquote
      · intro _ _ _ _ _ heq _
        exact hbackslash heq
      · intro _ _ heq _
        exact hbackslash heq
  | @short e c body cs hshort _ ih =>
      obtain ⟨ps, hps, hcs⟩ := ih
      refine ⟨.char c :: ps, ?_, by simp [characters?, hcs]⟩
      rw [List.cons_append, List.cons_append, literalBody, hshort, hps]
      · rfl
      · -- The escape is not one by a number.
        rintro _ _ _ _ _ rfl
        exact absurd rfl (ne_of_shortEscape? hshort)
  | @number u w x y z body cs hunit hl ht _ ih =>
      obtain ⟨ps, hps, hcs⟩ := ih
      refine ⟨.unit u :: ps, ?_, by rw [characters?_unit hl ht, hcs]; rfl⟩
      simp only [List.cons_append]
      rw [literalBody, hunit, hps]
      rfl

/-! ## Numbers -/

/-- The text does not go on with a number. -/
def Delimited (rest : List Char) : Prop :=
  ∀ c ∈ rest.head?, c.isDigit = false ∧ c ≠ '.' ∧ c ≠ 'e' ∧ c ≠ 'E'

theorem delimited_nil : Delimited [] := by simp [Delimited]

theorem Delimited.takeWhile_eq_nil {rest : List Char} (h : Delimited rest) :
    rest.takeWhile Char.isDigit = [] := by
  cases rest with
  | nil =>
      rfl
  | cons c cs =>
      simp [(h c rfl).1]

theorem Delimited.dropWhile_eq {rest : List Char} (h : Delimited rest) :
    rest.dropWhile Char.isDigit = rest := by
  cases rest with
  | nil =>
      rfl
  | cons c cs =>
      simp [(h c rfl).1]

theorem Delimited.fraction?_eq {rest : List Char} (h : Delimited rest) : fraction? rest = some ([], rest) := by
  cases rest with
  | nil =>
      rfl
  | cons c cs =>
      rw [fraction?]
      intro cs' heq
      exact (h c rfl).2.1 (List.cons.inj heq).1

theorem Delimited.exponent?_eq {rest : List Char} (h : Delimited rest) : exponent? rest = some ([], rest) := by
  cases rest with
  | nil =>
      rfl
  | cons c cs =>
      obtain ⟨-, -, he, hE⟩ := h c rfl
      simp [exponent?, he, hE]

/-- The digits of a positive number do not begin with a zero. -/
theorem toDigits_front {m : Nat} (hm : 0 < m) : ∃ c cs, Nat.toDigits 10 m = c :: cs ∧ c ≠ '0' := by
  induction m using Nat.strongRecOn with
  | _ m ih =>
      rw [Nat.toDigits_eq_if (by decide)]
      split
      · exact ⟨Nat.digitChar m, [], rfl, fun hzero => Nat.ne_of_gt hm (Nat.digitChar_eq_zero.1 hzero)⟩
      · obtain ⟨c, cs, hcs, hc⟩ := ih (m / 10) (by omega) (by omega)
        exact ⟨c, cs ++ [Nat.digitChar (m % 10)], by rw [hcs]; rfl, hc⟩

/-- The digits that are written for a number. -/
theorem numeralOf_toDigits (m : Nat) : NumeralOf (Nat.toDigits 10 m) m where
  nonempty := Nat.toDigits_ne_nil
  isDigit _ hc := Nat.isDigit_of_mem_toDigits (by decide) (by decide) hc
  front hfront := by
    rcases Nat.eq_zero_or_pos m with rfl | hm
    · rfl
    · obtain ⟨c, cs, hcs, hc⟩ := toDigits_front hm
      rw [hcs] at hfront
      exact absurd (Option.some.inj hfront) hc
  value := Nat.ofDigitChars_toDigits (by decide) (by decide)

/-- What is written for an integer is one of its literals. -/
theorem integerOf_literal (i : Int) : IntegerOf (integerLiteral (i < 0) i.natAbs) i := by
  by_cases hneg : i < 0
  · have habs : -(i.natAbs : Int) = i := by omega
    have h := IntegerOf.negative (numeralOf_toDigits i.natAbs) (by omega)
    rw [habs] at h
    simpa [integerLiteral, hneg] using h
  · have habs : (i.natAbs : Int) = i := by omega
    have h := IntegerOf.nonneg (numeralOf_toDigits i.natAbs)
    rw [habs] at h
    simpa [integerLiteral, hneg] using h

/-- A number begins with a digit. -/
theorem NumeralOf.exists_digit {digits : List Char} {m : Nat} (h : NumeralOf digits m) :
    ∃ c cs, digits = c :: cs ∧ c.isDigit = true := by
  obtain ⟨c, cs, rfl⟩ := List.exists_cons_of_ne_nil h.nonempty
  exact ⟨c, cs, rfl, h.isDigit c List.mem_cons_self⟩

theorem NumeralOf.digits?_eq {digits : List Char} {m : Nat} (h : NumeralOf digits m) {rest : List Char}
    (hrest : Delimited rest) : digits? (digits ++ rest) = some (digits, rest) := by
  obtain ⟨c, cs, hcs, -⟩ := h.exists_digit
  rw [digits?, List.takeWhile_append_of_pos h.isDigit, List.dropWhile_append_of_pos h.isDigit,
    hrest.takeWhile_eq_nil, hrest.dropWhile_eq, List.append_nil, hcs]

theorem NumeralOf.whole?_eq {digits : List Char} {m : Nat} (h : NumeralOf digits m) {rest : List Char}
    (hrest : Delimited rest) : whole? (digits ++ rest) = some (digits, rest) := by
  rw [whole?, h.digits?_eq hrest]
  split
  · rename_i c cs rest' heq
    -- Only zero begins with a zero, and it has one digit.
    obtain rfl : digits = '0' :: c :: cs := (Prod.mk.inj (Option.some.inj heq)).1
    exact absurd (h.front rfl) (by simp)
  · rfl

/-- An integer behind its sign. -/
theorem NumeralOf.unsigned_eq {digits : List Char} {m : Nat} (h : NumeralOf digits m) (negative : Bool)
    {rest : List Char} (hrest : Delimited rest) :
    unsigned negative (digits ++ rest) = some (.integer negative m, rest) := by
  rw [unsigned, h.whole?_eq hrest]
  simp only [hrest.fraction?_eq, hrest.exponent?_eq, List.isEmpty_nil, if_true, h.value]

/-- The character begins a number. -/
def BeginsNumber (c : Char) : Prop := c.isDigit = true ∨ c = '-'

theorem BeginsNumber.ne {c : Char} (hc : BeginsNumber c) (x : Char) (hx : x.isDigit = false) (hminus : x ≠ '-') :
    c ≠ x := by
  rintro rfl
  rcases hc with hc | hc
  · rw [hx] at hc
    exact absurd hc (by simp)
  · exact hminus hc

theorem BeginsNumber.not_blank {c : Char} (hc : BeginsNumber c) : isBlank c = false := by
  simp [isBlank, hc.ne ' ' (by decide) (by decide), hc.ne '\n' (by decide) (by decide),
    hc.ne '\r' (by decide) (by decide), hc.ne '\t' (by decide) (by decide)]

theorem IntegerOf.exists_front {literal : List Char} {i : Int} (h : IntegerOf literal i) :
    ∃ c cs, literal = c :: cs ∧ BeginsNumber c := by
  cases h with
  | nonneg h =>
      obtain ⟨c, cs, hcs, hdigit⟩ := h.exists_digit
      exact ⟨c, cs, hcs, Or.inl hdigit⟩
  | negative h _ =>
      exact ⟨'-', _, rfl, Or.inr rfl⟩

/-- Without a sign, the digits are read at once. -/
theorem number_of_ne {c : Char} (h : c ≠ '-') (cs : List Char) : number (c :: cs) = unsigned false (c :: cs) := by
  rw [number]
  intro cs' heq
  exact h (List.cons.inj heq).1

/-- An integer is read as what it stands for. -/
theorem IntegerOf.number_eq {literal : List Char} {i : Int} (h : IntegerOf literal i) {rest : List Char}
    (hrest : Delimited rest) : number (literal ++ rest) = some (.integer (i < 0) i.natAbs, rest) := by
  cases h with
  | @nonneg _ m h =>
      obtain ⟨c, cs, rfl, hdigit⟩ := h.exists_digit
      have hminus : c ≠ '-' := by
        rintro rfl
        exact absurd hdigit (by decide)
      have hunsigned := h.unsigned_eq false hrest
      rw [List.cons_append] at hunsigned ⊢
      rw [number_of_ne hminus, hunsigned]
      simp
  | @negative digits m h hm =>
      rw [List.cons_append, number, h.unsigned_eq true hrest]
      simp [hm]

end Json

end MaximalMunch
