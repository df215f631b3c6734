import MaximalMunch.Json.Reader
import MaximalMunch.Proofs.JsonLiteral

/-!
# Reading the front of a text

A value is read from the front of a text. What is read depends neither on the text behind it nor on the limit.

- `literalBody_append`, `number_append` : literals in front of more text
- `value_array_iff`, `elements_eq_some_iff`, `value_object_iff`, `members_eq_some_iff` : what a step of the
  reader does
- `Json.Extends`, `Json.extends_all`    : values in front of more text, by induction on the limit
-/

namespace MaximalMunch

namespace Json

/-! ## Blanks -/

theorem skipBlanks_cons {c : Char} (h : isBlank c = false) (cs : List Char) :
    skipBlanks (c :: cs) = c :: cs := by
  simp [skipBlanks, h]

/-- Nothing is blank behind the blanks. -/
theorem not_blank_of_skipBlanks {cs rest : List Char} {c : Char} (h : skipBlanks cs = c :: rest) :
    isBlank c = false := by
  have hhead := List.head?_dropWhile_not isBlank cs
  rw [skipBlanks] at h
  rw [h] at hhead
  simpa using hhead

/-- More text changes nothing if something follows the blanks. -/
theorem skipBlanks_append {cs rest : List Char} {c : Char} (h : skipBlanks cs = c :: rest) (more : List Char) :
    skipBlanks (cs ++ more) = c :: rest ++ more := by
  rw [skipBlanks] at h ⊢
  rw [List.dropWhile_append, h]
  rfl

/-- If there are only blanks, the blanks of more text follow them. -/
theorem skipBlanks_append_of_nil {cs : List Char} (h : skipBlanks cs = []) (more : List Char) :
    skipBlanks (cs ++ more) = skipBlanks more := by
  rw [skipBlanks] at h ⊢
  rw [List.dropWhile_append, h]
  rfl

theorem skipBlanks_skipBlanks (cs : List Char) : skipBlanks (skipBlanks cs) = skipBlanks cs := by
  cases h : skipBlanks cs with
  | nil =>
      rfl
  | cons c rest =>
      exact skipBlanks_cons (not_blank_of_skipBlanks h) rest

/-! ## Literals -/

/-- A string literal ends with its quotation mark, whatever follows it. -/
theorem literalBody_append {cs rest : List Char} {ps : List TextPart} (h : literalBody cs = some (ps, rest))
    (more : List Char) : literalBody (cs ++ more) = some (ps, rest ++ more) := by
  fun_induction literalBody cs generalizing ps rest with
  | case1 =>
      exact absurd h (by simp)
  | case2 cs =>
      obtain ⟨rfl, rfl⟩ : [] = ps ∧ cs = rest := by simpa using h
      rfl
  | case3 w x y z cs hunit =>
      exact absurd h (by simp)
  | case4 w x y z cs p hunit ih =>
      obtain ⟨⟨qs, rest'⟩, hqs, hp⟩ := Option.map_eq_some_iff.1 h
      obtain ⟨rfl, rfl⟩ : p :: qs = ps ∧ rest' = rest := by simpa [consPart] using hp
      simp only [List.cons_append]
      rw [literalBody, hunit]
      simp [ih hqs, consPart]
  | case5 e cs hu hshort =>
      exact absurd h (by simp)
  | case6 e cs hu c hshort ih =>
      obtain ⟨⟨qs, rest'⟩, hqs, hp⟩ := Option.map_eq_some_iff.1 h
      obtain ⟨rfl, rfl⟩ : .char c :: qs = ps ∧ rest' = rest := by simpa [consPart] using hp
      simp only [List.cons_append]
      rw [literalBody, hshort]
      · simp [ih hqs, consPart]
      · rintro _ _ _ _ _ rfl
        exact absurd rfl (ne_of_shortEscape? hshort)
  | case7 c cs _ _ _ hbad =>
      exact absurd h (by simp)
  | case8 c cs hquote _ _ hplain ih =>
      -- A backslash alone at the end is refused, so this one character stands for itself.
      have hbackslash : c ≠ '\\' := fun heq => hplain (Or.inl heq)
      obtain ⟨⟨qs, rest'⟩, hqs, hp⟩ := Option.map_eq_some_iff.1 h
      obtain ⟨rfl, rfl⟩ : .char c :: qs = ps ∧ rest' = rest := by simpa [consPart] using hp
      simp only [List.cons_append]
      rw [literalBody, if_neg hplain]
      · simp [ih hqs, consPart]
      · exact hquote
      · intro _ _ _ _ _ heq _
        exact hbackslash heq
      · intro _ _ heq _
        exact hbackslash heq

/-! ## Numbers -/

theorem Delimited.takeWhile_append {more : List Char} (h : Delimited more) (cs : List Char) :
    (cs ++ more).takeWhile Char.isDigit = cs.takeWhile Char.isDigit := by
  induction cs with
  | nil =>
      exact h.takeWhile_eq_nil
  | cons c cs ih =>
      rw [List.cons_append, List.takeWhile_cons, List.takeWhile_cons, ih]

theorem Delimited.dropWhile_append {more : List Char} (h : Delimited more) (cs : List Char) :
    (cs ++ more).dropWhile Char.isDigit = cs.dropWhile Char.isDigit ++ more := by
  induction cs with
  | nil =>
      exact h.dropWhile_eq
  | cons c cs ih =>
      rw [List.cons_append, List.dropWhile_cons, List.dropWhile_cons, ih]
      split <;> rfl

theorem digits?_append {cs ds rest more : List Char} (h : digits? cs = some (ds, rest)) (hmore : Delimited more) :
    digits? (cs ++ more) = some (ds, rest ++ more) := by
  rw [digits?] at h ⊢
  rw [hmore.takeWhile_append, hmore.dropWhile_append]
  split at h
  · exact absurd h (by simp)
  · obtain ⟨rfl, rfl⟩ := Prod.mk.inj (Option.some.inj h)
    rfl

theorem whole?_append {cs ds rest more : List Char} (h : whole? cs = some (ds, rest)) (hmore : Delimited more) :
    whole? (cs ++ more) = some (ds, rest ++ more) := by
  rw [whole?] at h
  split at h
  · exact absurd h (by simp)
  · rename_i hfront
    -- Zeros in front would have been refused.
    rw [whole?, digits?_append h hmore]
    split
    · rename_i c cs' rest' heq
      obtain ⟨rfl, -⟩ := Prod.mk.inj (Option.some.inj heq)
      exact absurd h (hfront c cs' rest)
    · rfl

theorem fraction?_append {cs ds rest more : List Char} (h : fraction? cs = some (ds, rest))
    (hmore : Delimited more) : fraction? (cs ++ more) = some (ds, rest ++ more) := by
  cases cs with
  | nil =>
      obtain ⟨rfl, rfl⟩ := Prod.mk.inj (Option.some.inj h)
      exact hmore.fraction?_eq
  | cons c cs =>
      by_cases hpoint : c = '.'
      · subst hpoint
        obtain ⟨⟨ds', rest'⟩, hds, heq⟩ := Option.map_eq_some_iff.1 h
        obtain ⟨rfl, rfl⟩ := Prod.mk.inj heq
        rw [List.cons_append, fraction?, digits?_append hds hmore]
        rfl
      · have hnot (tail : List Char) : ∀ cs', c :: tail = '.' :: cs' → False :=
          fun cs' heq => hpoint (List.cons.inj heq).1
        rw [fraction?] at h
        · obtain ⟨rfl, rfl⟩ := Prod.mk.inj (Option.some.inj h)
          rw [List.cons_append, fraction?]
          exact hnot _
        · exact hnot _

theorem sign_append (c : Char) (cs more : List Char) :
    sign (c :: cs ++ more) = ((sign (c :: cs)).1, (sign (c :: cs)).2 ++ more) := by
  rw [List.cons_append]
  unfold sign
  split <;> simp_all

theorem exponent?_append {cs ds rest more : List Char} (h : exponent? cs = some (ds, rest))
    (hmore : Delimited more) : exponent? (cs ++ more) = some (ds, rest ++ more) := by
  cases cs with
  | nil =>
      obtain ⟨rfl, rfl⟩ := Prod.mk.inj (Option.some.inj h)
      exact hmore.exponent?_eq
  | cons c cs =>
      rw [exponent?] at h
      rw [List.cons_append, exponent?]
      split at h
      · rename_i hletter
        rw [if_pos hletter]
        obtain ⟨⟨ds', rest'⟩, hds, heq⟩ := Option.map_eq_some_iff.1 h
        obtain ⟨rfl, rfl⟩ := Prod.mk.inj heq
        cases cs with
        | nil =>
            -- An exponent has a digit.
            exact absurd hds (by simp [sign, digits?])
        | cons c' cs =>
            rw [sign_append, digits?_append hds hmore]
            rfl
      · rename_i hletter
        rw [if_neg hletter]
        obtain ⟨rfl, rfl⟩ := Prod.mk.inj (Option.some.inj h)
        rfl

theorem unsigned_append {negative : Bool} {cs rest more : List Char} {v : Value}
    (h : unsigned negative cs = some (v, rest)) (hmore : Delimited more) :
    unsigned negative (cs ++ more) = some (v, rest ++ more) := by
  rw [unsigned] at h ⊢
  cases hwhole : whole? cs with
  | none =>
      simp [hwhole] at h
  | some w =>
      simp only [hwhole, whole?_append hwhole hmore] at h ⊢
      cases hfraction : fraction? w.2 with
      | none =>
          simp [hfraction] at h
      | some f =>
          simp only [hfraction, fraction?_append hfraction hmore] at h ⊢
          cases hexponent : exponent? f.2 with
          | none =>
              simp [hexponent] at h
          | some e =>
              simp only [hexponent, exponent?_append hexponent hmore] at h ⊢
              obtain ⟨exponent, rest'⟩ := e
              cases exponent with
              | nil =>
                  simp only at h ⊢
                  split at h <;> simp_all
              | cons c cs =>
                  simp_all

/-- A number is read in front of more text that does not go on with it. -/
theorem number_append {cs rest more : List Char} {v : Value} (h : number cs = some (v, rest))
    (hmore : Delimited more) : number (cs ++ more) = some (v, rest ++ more) := by
  cases cs with
  | nil =>
      exact absurd h (by simp [number, unsigned, whole?, digits?])
  | cons c cs =>
      by_cases hminus : c = '-'
      · subst hminus
        rw [number] at h
        rw [List.cons_append, number]
        exact unsigned_append h hmore
      · rw [number_of_ne hminus] at h
        rw [List.cons_append, number_of_ne hminus]
        exact unsigned_append h hmore

/-- What is read as a number begins with a digit or a sign. -/
theorem beginsNumber_of_number {cs rest : List Char} {v : Value} (h : number cs = some (v, rest)) :
    ∃ c tail, cs = c :: tail ∧ BeginsNumber c := by
  cases cs with
  | nil =>
      exact absurd h (by simp [number, unsigned, whole?, digits?])
  | cons c tail =>
      refine ⟨c, tail, rfl, ?_⟩
      by_cases hminus : c = '-'
      · exact Or.inr hminus
      · refine Or.inl ?_
        cases hdigit : c.isDigit with
        | true =>
            rfl
        | false =>
            rw [number_of_ne hminus] at h
            simp [unsigned, whole?, digits?, hdigit] at h

/-! ## What a step of the reader does -/

/-- What begins like a number is read as one. -/
theorem BeginsNumber.value_eq {c : Char} (hc : BeginsNumber c) (limit : Nat) {cs tail : List Char}
    (h : skipBlanks cs = c :: tail) : value (limit + 1) cs = number (c :: tail) := by
  rw [value, h]
  split
  case h_7 => rfl
  all_goals
    rename_i heq
    exact absurd (List.cons.inj heq).1 (hc.ne _ (by decide) (by decide))

/-- Blanks in front change nothing. -/
theorem value_skipBlanks (limit : Nat) (cs : List Char) : value limit (skipBlanks cs) = value limit cs := by
  cases limit with
  | zero =>
      rfl
  | succ limit =>
      rw [value, value, skipBlanks_skipBlanks]

theorem elements_skipBlanks (limit : Nat) (cs : List Char) :
    elements limit (skipBlanks cs) = elements limit cs := by
  cases limit with
  | zero =>
      rfl
  | succ limit =>
      rw [elements, elements, value_skipBlanks]

theorem members_skipBlanks (limit : Nat) (cs : List Char) :
    members limit (skipBlanks cs) = members limit cs := by
  cases limit with
  | zero =>
      rfl
  | succ limit =>
      rw [members, members, skipBlanks_skipBlanks]

/-- No value begins with a closing bracket. -/
theorem exists_front_of_value {limit : Nat} {cs rest : List Char} {v : Value}
    (h : value limit cs = some (v, rest)) : ∃ c tail, skipBlanks cs = c :: tail ∧ c ≠ ']' := by
  cases limit with
  | zero =>
      exact absurd h (by simp [value])
  | succ limit =>
      rw [value] at h
      split at h
      case h_7 =>
        obtain ⟨c, tail, hc, hnumber⟩ := beginsNumber_of_number h
        exact ⟨c, tail, hc, hnumber.ne ']' (by decide) (by decide)⟩
      all_goals
        rename_i heq
        exact ⟨_, _, heq, by decide⟩

/-- An element is the last one, or a comma and more elements follow it. -/
theorem elements_eq_some_iff {limit : Nat} {cs rest : List Char} {vs : List Value} :
    elements (limit + 1) cs = some (vs, rest) ↔
      ∃ v tail, value limit cs = some (v, tail) ∧
        ((skipBlanks tail = ']' :: rest ∧ vs = [v]) ∨
          ∃ tail' vs', skipBlanks tail = ',' :: tail' ∧ elements limit tail' = some (vs', rest) ∧
            vs = v :: vs') := by
  rw [elements]
  constructor
  · intro h
    split at h
    · exact absurd h (by simp)
    · rename_i v tail hv
      refine ⟨v, tail, hv, ?_⟩
      split at h
      · rename_i heq
        obtain ⟨rfl, rfl⟩ := Prod.mk.inj (Option.some.inj h)
        exact Or.inl ⟨heq, rfl⟩
      · rename_i tail' heq
        obtain ⟨⟨vs', rest'⟩, hvs, hp⟩ := Option.map_eq_some_iff.1 h
        obtain ⟨rfl, rfl⟩ := Prod.mk.inj hp
        exact Or.inr ⟨tail', vs', heq, hvs, rfl⟩
      · exact absurd h (by simp)
  · rintro ⟨v, tail, hv, ⟨hend, rfl⟩ | ⟨tail', vs', hcomma, hvs, rfl⟩⟩
    · simp [hv, hend]
    · simp [hv, hcomma, hvs]

theorem exists_front_of_elements {limit : Nat} {cs rest : List Char} {vs : List Value}
    (h : elements limit cs = some (vs, rest)) : ∃ c tail, skipBlanks cs = c :: tail ∧ c ≠ ']' := by
  cases limit with
  | zero =>
      exact absurd h (by simp [elements])
  | succ limit =>
      obtain ⟨v, tail, hv, -⟩ := elements_eq_some_iff.1 h
      exact exists_front_of_value hv

/-- The brackets of an array enclose nothing or its elements. -/
theorem value_array_iff {limit : Nat} {cs tail rest : List Char} {v : Value} (h : skipBlanks cs = '[' :: tail) :
    value (limit + 1) cs = some (v, rest) ↔
      (skipBlanks tail = ']' :: rest ∧ v = .array []) ∨
        ∃ vs, elements limit tail = some (vs, rest) ∧ v = .array vs := by
  rw [value, h, ← elements_skipBlanks]
  constructor
  · intro hv
    simp only at hv
    split at hv
    · rename_i heq
      obtain ⟨rfl, rfl⟩ := Prod.mk.inj (Option.some.inj hv)
      exact Or.inl ⟨heq, rfl⟩
    · obtain ⟨⟨vs, rest'⟩, hvs, hp⟩ := Option.map_eq_some_iff.1 hv
      obtain ⟨rfl, rfl⟩ := Prod.mk.inj hp
      exact Or.inr ⟨vs, hvs, rfl⟩
  · rintro (⟨hend, rfl⟩ | ⟨vs, hvs, rfl⟩)
    · simp [hend]
    · simp only
      split
      · -- An element does not begin with the closing bracket.
        rename_i heq
        obtain ⟨c, tail', hc, hne⟩ := exists_front_of_elements hvs
        rw [heq, skipBlanks_cons (by decide)] at hc
        exact absurd (List.cons.inj hc).1.symm hne
      · rw [hvs]
        rfl

/-- A member stands in front: its key, a colon and its value. -/
def MemberAt (limit : Nat) (cs : List Char) (key : List TextPart) (v : Value) (rest : List Char) : Prop :=
  ∃ body tail text, skipBlanks cs = '"' :: body ∧ literalBody body = some (key, tail) ∧
    skipBlanks tail = ':' :: text ∧ value limit text = some (v, rest)

/-- A member is the last one, or a comma and more members follow it. -/
theorem members_eq_some_iff {limit : Nat} {cs rest : List Char} {ms : List (List TextPart × Value)} :
    members (limit + 1) cs = some (ms, rest) ↔
      ∃ key v tail, MemberAt limit cs key v tail ∧
        ((skipBlanks tail = '\x7d' :: rest ∧ ms = [(key, v)]) ∨
          ∃ tail' ms', skipBlanks tail = ',' :: tail' ∧ members limit tail' = some (ms', rest) ∧
            ms = (key, v) :: ms') := by
  rw [members]
  constructor
  · intro h
    split at h
    · rename_i body hfront
      split at h
      · exact absurd h (by simp)
      · rename_i key tail hkey
        split at h
        · rename_i text hcolon
          split at h
          · exact absurd h (by simp)
          · rename_i v tail' hv
            refine ⟨key, v, tail', ⟨body, tail, text, hfront, hkey, hcolon, hv⟩, ?_⟩
            split at h
            · rename_i hend
              obtain ⟨rfl, rfl⟩ := Prod.mk.inj (Option.some.inj h)
              exact Or.inl ⟨hend, rfl⟩
            · rename_i tail'' hcomma
              obtain ⟨⟨ms', rest'⟩, hms, hp⟩ := Option.map_eq_some_iff.1 h
              obtain ⟨rfl, rfl⟩ := Prod.mk.inj hp
              exact Or.inr ⟨tail'', ms', hcomma, hms, rfl⟩
            · exact absurd h (by simp)
        · exact absurd h (by simp)
    · exact absurd h (by simp)
  · rintro ⟨key, v, tail, ⟨body, tail', text, hfront, hkey, hcolon, hv⟩, ⟨hend, rfl⟩ | ⟨tail'', ms', hcomma, hms, rfl⟩⟩
    · simp [hfront, hkey, hcolon, hv, hend]
    · simp [hfront, hkey, hcolon, hv, hcomma, hms]

theorem exists_front_of_members {limit : Nat} {cs rest : List Char} {ms : List (List TextPart × Value)}
    (h : members limit cs = some (ms, rest)) : ∃ tail, skipBlanks cs = '"' :: tail := by
  cases limit with
  | zero =>
      exact absurd h (by simp [members])
  | succ limit =>
      obtain ⟨key, v, tail, ⟨body, -, -, hfront, -⟩, -⟩ := members_eq_some_iff.1 h
      exact ⟨body, hfront⟩

/-- The braces of an object enclose nothing or its members. -/
theorem value_object_iff {limit : Nat} {cs tail rest : List Char} {v : Value}
    (h : skipBlanks cs = '\x7b' :: tail) :
    value (limit + 1) cs = some (v, rest) ↔
      (skipBlanks tail = '\x7d' :: rest ∧ v = .object []) ∨
        ∃ ms, members limit tail = some (ms, rest) ∧ v = .object ms := by
  rw [value, h, ← members_skipBlanks]
  constructor
  · intro hv
    simp only at hv
    split at hv
    · rename_i heq
      obtain ⟨rfl, rfl⟩ := Prod.mk.inj (Option.some.inj hv)
      exact Or.inl ⟨heq, rfl⟩
    · obtain ⟨⟨ms, rest'⟩, hms, hp⟩ := Option.map_eq_some_iff.1 hv
      obtain ⟨rfl, rfl⟩ := Prod.mk.inj hp
      exact Or.inr ⟨ms, hms, rfl⟩
  · rintro (⟨hend, rfl⟩ | ⟨ms, hms, rfl⟩)
    · simp [hend]
    · simp only
      split
      · -- A member begins with the quotation mark of its key.
        rename_i heq
        obtain ⟨tail', hfront⟩ := exists_front_of_members hms
        rw [heq, skipBlanks_cons (by decide)] at hfront
        exact absurd (List.cons.inj hfront).1 (by decide)
      · rw [hms]
        rfl

/-! ## More text and larger limits -/

/-- What is read with a limit is read with any larger one, in front of any text that does not go on with a
number. -/
structure Extends (limit : Nat) : Prop where
  value : ∀ {cs rest : List Char} {v : Value}, Json.value limit cs = some (v, rest) →
    ∀ {limit' : Nat} {more : List Char}, limit ≤ limit' → Delimited more →
      Json.value limit' (cs ++ more) = some (v, rest ++ more)
  elements : ∀ {cs rest : List Char} {vs : List Value}, Json.elements limit cs = some (vs, rest) →
    ∀ {limit' : Nat} {more : List Char}, limit ≤ limit' → Delimited more →
      Json.elements limit' (cs ++ more) = some (vs, rest ++ more)
  members : ∀ {cs rest : List Char} {ms : List (List TextPart × Value)}, Json.members limit cs = some (ms, rest) →
    ∀ {limit' : Nat} {more : List Char}, limit ≤ limit' → Delimited more →
      Json.members limit' (cs ++ more) = some (ms, rest ++ more)

namespace Extends

variable {limit limit' : Nat} {cs rest more : List Char}

theorem elements_succ (ih : Extends limit) {vs : List Value}
    (h : Json.elements (limit + 1) cs = some (vs, rest)) (hlimit : limit ≤ limit') (hmore : Delimited more) :
    Json.elements (limit' + 1) (cs ++ more) = some (vs, rest ++ more) := by
  obtain ⟨v, tail, hv, hnext⟩ := elements_eq_some_iff.1 h
  refine elements_eq_some_iff.2 ⟨v, tail ++ more, ih.value hv hlimit hmore, ?_⟩
  rcases hnext with ⟨hend, rfl⟩ | ⟨tail', vs', hcomma, hvs, rfl⟩
  · exact Or.inl ⟨skipBlanks_append hend more, rfl⟩
  · exact Or.inr ⟨tail' ++ more, vs', skipBlanks_append hcomma more, ih.elements hvs hlimit hmore, rfl⟩

theorem members_succ (ih : Extends limit) {ms : List (List TextPart × Value)}
    (h : Json.members (limit + 1) cs = some (ms, rest)) (hlimit : limit ≤ limit') (hmore : Delimited more) :
    Json.members (limit' + 1) (cs ++ more) = some (ms, rest ++ more) := by
  obtain ⟨key, v, tail, ⟨body, tail', text, hfront, hkey, hcolon, hv⟩, hnext⟩ := members_eq_some_iff.1 h
  have hmember : MemberAt limit' (cs ++ more) key v (tail ++ more) :=
    ⟨body ++ more, tail' ++ more, text ++ more, skipBlanks_append hfront more, literalBody_append hkey more,
      skipBlanks_append hcolon more, ih.value hv hlimit hmore⟩
  refine members_eq_some_iff.2 ⟨key, v, tail ++ more, hmember, ?_⟩
  rcases hnext with ⟨hend, rfl⟩ | ⟨tail'', ms', hcomma, hms, rfl⟩
  · exact Or.inl ⟨skipBlanks_append hend more, rfl⟩
  · exact Or.inr ⟨tail'' ++ more, ms', skipBlanks_append hcomma more, ih.members hms hlimit hmore, rfl⟩

theorem value_succ (ih : Extends limit) {v : Value} (h : Json.value (limit + 1) cs = some (v, rest))
    (hlimit : limit ≤ limit') (hmore : Delimited more) :
    Json.value (limit' + 1) (cs ++ more) = some (v, rest ++ more) := by
  have hvalue := h
  rw [Json.value] at h
  split at h
  case h_4 tail heq =>
    obtain ⟨⟨ps, rest'⟩, hps, hp⟩ := Option.map_eq_some_iff.1 h
    obtain ⟨rfl, rfl⟩ := Prod.mk.inj hp
    rw [Json.value, skipBlanks_append heq]
    simp [literalBody_append hps]
  case h_5 tail heq =>
    refine (value_array_iff (skipBlanks_append heq more)).2 ?_
    rcases (value_array_iff heq).1 hvalue with ⟨hend, rfl⟩ | ⟨vs, hvs, rfl⟩
    · exact Or.inl ⟨skipBlanks_append hend more, rfl⟩
    · exact Or.inr ⟨vs, ih.elements hvs hlimit hmore, rfl⟩
  case h_6 tail heq =>
    refine (value_object_iff (skipBlanks_append heq more)).2 ?_
    rcases (value_object_iff heq).1 hvalue with ⟨hend, rfl⟩ | ⟨ms, hms, rfl⟩
    · exact Or.inl ⟨skipBlanks_append hend more, rfl⟩
    · exact Or.inr ⟨ms, ih.members hms hlimit hmore, rfl⟩
  case h_7 =>
    obtain ⟨c, tail, hc, hnumber⟩ := beginsNumber_of_number h
    rw [hnumber.value_eq limit' (skipBlanks_append hc more)]
    rw [hc] at h
    exact number_append h hmore
  all_goals
    rename_i heq
    obtain ⟨rfl, rfl⟩ := Prod.mk.inj (Option.some.inj h)
    rw [Json.value, skipBlanks_append heq]
    rfl

end Extends

theorem extends_zero : Extends 0 where
  value h := absurd h (by simp [value])
  elements h := absurd h (by simp [elements])
  members h := absurd h (by simp [members])

/-- The limit goes down with each call, so the induction is on it. -/
theorem extends_all (limit : Nat) : Extends limit := by
  induction limit with
  | zero =>
      exact extends_zero
  | succ limit ih =>
      refine ⟨fun h limit' more hlimit hmore => ?_, fun h limit' more hlimit hmore => ?_,
        fun h limit' more hlimit hmore => ?_⟩
      all_goals obtain ⟨limit'', rfl⟩ : ∃ k, limit' = k + 1 := ⟨limit' - 1, by omega⟩
      · exact ih.value_succ h (Nat.le_of_succ_le_succ hlimit) hmore
      · exact ih.elements_succ h (Nat.le_of_succ_le_succ hlimit) hmore
      · exact ih.members_succ h (Nat.le_of_succ_le_succ hlimit) hmore

end Json

end MaximalMunch
