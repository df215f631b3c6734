import MaximalMunch.Json.Literal
import MaximalMunch.Text.Escaped

/-!
# Escaped text can be read

The written form of a character tells where it ends, whatever stands behind it. So an escaped text can be
read from front to back, and different texts have different escaped forms.

- `Text.unescape?`                : the character in front of an escaped text, and the text behind it
- `Text.codeFrom?_toDigits`       : a scalar value is read back, by induction on its digits
- `Text.unescape?_escapedChar`    : a character is read back, by the three ways in which it is written
- `Text.escapedChar_append_inj`   : no two characters can stand in front of one escaped text
- `Text.escaped_inj`              : different texts have different escaped forms
-/

namespace MaximalMunch

namespace Text

/-! ## Reading -/

/-- The character that a short escape stands for. -/
def shortEscape? : Char → Option Char
  | 't' => some '\t'
  | 'r' => some '\r'
  | 'n' => some '\n'
  | '\'' => some '\''
  | '"' => some '"'
  | '\\' => some '\\'
  | _ => none

/-- Read hexadecimal digits up to a closing brace; `n` is the value of the digits before them. -/
def codeFrom? (n : Nat) : List Char → Option (Nat × List Char)
  | [] => none
  | '}' :: cs => some (n, cs)
  | d :: cs => (Json.hexDigit? d).bind fun k => codeFrom? (16 * n + k) cs

/-- Read the character in front of an escaped text; the rest is what stands behind it. -/
def unescape? : List Char → Option (Char × List Char)
  | '\\' :: 'u' :: '{' :: cs => (codeFrom? 0 cs).map fun (n, rest) => (Char.ofNat n, rest)
  | '\\' :: e :: cs => (shortEscape? e).map fun c => (c, cs)
  | ['\\'] => none
  | c :: cs => some (c, cs)
  | [] => none

/-! ## Code escapes -/

variable {c d : Char} {cs u v : List Char}

theorem hexDigit?_digitChar : ∀ k < 16, Json.hexDigit? (Nat.digitChar k) = some k := by decide

theorem digitChar_ne_brace : ∀ k < 16, Nat.digitChar k ≠ '}' := by decide

theorem codeFrom?_digit {k : Nat} (hk : k < 16) (n : Nat) (cs : List Char) :
    codeFrom? n (Nat.digitChar k :: cs) = codeFrom? (16 * n + k) cs := by
  rw [codeFrom?, hexDigit?_digitChar k hk, Option.bind_some]
  intro hbrace
  exact digitChar_ne_brace k hk hbrace

/-- The digits of a number are read as this number. -/
theorem codeFrom?_toDigits (n : Nat) (cs : List Char) :
    codeFrom? 0 (Nat.toDigits 16 n ++ cs) = codeFrom? n cs := by
  induction n using Nat.strongRecOn generalizing cs with
  | _ n ih =>
      rw [Nat.toDigits_eq_if (by decide)]
      split
      · rename_i hlt
        rw [List.singleton_append, codeFrom?_digit hlt, Nat.mul_zero, Nat.zero_add]
      · -- The last digit is read behind the number of the other ones.
        rename_i hle
        calc
          codeFrom? 0 (Nat.toDigits 16 (n / 16) ++ [Nat.digitChar (n % 16)] ++ cs)
            = codeFrom? 0 (Nat.toDigits 16 (n / 16) ++ Nat.digitChar (n % 16) :: cs) := by
              rw [List.append_assoc, List.singleton_append]
          _ = codeFrom? (n / 16) (Nat.digitChar (n % 16) :: cs) := ih (n / 16) (by omega) _
          _ = codeFrom? (16 * (n / 16) + n % 16) cs := codeFrom?_digit (Nat.mod_lt n (by decide)) _ _
          _ = codeFrom? n cs := by rw [Nat.div_add_mod]

/-! ## Characters -/

/-- A character is written with a short escape, or by its scalar value, or as it is. -/
theorem escapedChar_cases (c : Char) :
    (∃ e, escapedChar c = ['\\', e] ∧ e ≠ 'u' ∧ shortEscape? e = some c) ∨
      escapedChar c = codeEscape c ∨ (c ≠ '\\' ∧ escapedChar c = [c]) := by
  unfold escapedChar
  split
  case h_7 _ _ _ _ _ hbackslash =>
    split
    · exact Or.inr (Or.inr ⟨hbackslash, rfl⟩)
    · exact Or.inr (Or.inl rfl)
  all_goals exact Or.inl ⟨_, rfl, by decide, rfl⟩

/-- A character is read back, and nothing of the text behind it is taken for a part of it. -/
theorem unescape?_escapedChar (c : Char) (rest : List Char) :
    unescape? (escapedChar c ++ rest) = some (c, rest) := by
  rcases escapedChar_cases c with ⟨e, hc, hne, hshort⟩ | hc | ⟨hne, hc⟩
  · rw [hc, List.cons_append, List.singleton_append, unescape?, hshort]
    · rfl
    · -- The escape is not one by a scalar value.
      rintro _ rfl
      exact absurd rfl hne
  · calc
      unescape? (escapedChar c ++ rest)
        = unescape? ('\\' :: 'u' :: '{' :: (Nat.toDigits 16 c.toNat ++ '}' :: rest)) := by
          rw [hc, codeEscape]
          simp
      _ = some (Char.ofNat c.toNat, rest) := by
          rw [unescape?, codeFrom?_toDigits]
          rfl
      _ = some (c, rest) := by rw [Char.ofNat_toNat]
  · rw [hc, List.singleton_append, unescape?]
    all_goals simp [hne]

/-- An escaped text begins with the written form of one character. -/
theorem escapedChar_append_inj (h : escapedChar c ++ u = escapedChar d ++ v) : c = d ∧ u = v := by
  have hread : some (c, u) = some (d, v) := by
    rw [← unescape?_escapedChar c u, h, unescape?_escapedChar d v]
  exact Prod.mk.inj (Option.some.inj hread)

theorem escapedChar_ne_nil (c : Char) : escapedChar c ≠ [] := by
  intro hnil
  have hread := unescape?_escapedChar c []
  rw [hnil] at hread
  exact absurd hread (by simp [unescape?])

/-! ## Texts -/

theorem flatMap_escapedChar_inj {as bs : List Char} (h : as.flatMap escapedChar = bs.flatMap escapedChar) :
    as = bs := by
  induction as generalizing bs with
  | nil =>
      cases bs with
      | nil =>
          rfl
      | cons b bs =>
          rw [List.flatMap_nil, List.flatMap_cons] at h
          exact absurd (List.append_eq_nil_iff.1 h.symm).1 (escapedChar_ne_nil b)
  | cons a as ih =>
      cases bs with
      | nil =>
          rw [List.flatMap_nil, List.flatMap_cons] at h
          exact absurd (List.append_eq_nil_iff.1 h).1 (escapedChar_ne_nil a)
      | cons b bs =>
          rw [List.flatMap_cons, List.flatMap_cons] at h
          -- The character in front is read off both texts, and the same is left of them.
          obtain ⟨rfl, hrest⟩ := escapedChar_append_inj h
          rw [ih hrest]

/-- Different texts have different escaped forms. -/
theorem escaped_inj {s t : String} (h : escaped s = escaped t) : s = t :=
  String.toList_inj.1 (flatMap_escapedChar_inj (String.ofList_injective h))

end Text

end MaximalMunch
