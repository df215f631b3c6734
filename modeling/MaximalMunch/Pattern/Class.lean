import MaximalMunch.Range
import MaximalMunch.SyntaxError
import MaximalMunch.Token.Basic

/-!
# Character classes

What stands between brackets: single characters and ranges, all of them complemented behind a leading
negation. A closing bracket in the first place is a character of the class.

- `CharacterClass.items` : the ranges up to the closing bracket
- `CharacterClass.read`  : a whole class, from behind the opening bracket
- `length_rest_read`     : reading a class leaves fewer tokens
-/

namespace MaximalMunch

/-- A class, the position behind its closing bracket, and the tokens that follow. -/
structure CharacterClass where
  ranges : List Range
  position : Nat
  rest : Tokens

namespace CharacterClass

open Tokens

/-- Put a range in front of a class. -/
def cons (r : Range) (c : CharacterClass) : CharacterClass := { c with ranges := r :: c.ranges }

/-- The items up to the closing bracket. Any token stands for its character, except for a closing bracket
in the place of an item and for a range sign behind one. -/
def items : Tokens → Except SyntaxError CharacterClass
  | .ended p => .error ⟨.unfinishedClass, p⟩
  | .failed p => .error ⟨.unrecognizedCharacter, p⟩
  | .token .classEnd _ p rest => .ok ⟨[], p, rest⟩
  -- Behind a range sign any token is the end of a range, even a closing bracket.
  | .token _ x _ (.token .range _ _ (.token _ y p rest)) =>
    if y < x then .error ⟨.invalidRange, p⟩
    else (items rest).map (cons ⟨CodePoint.ofChar x, CodePoint.ofChar y⟩)
  | .token _ _ _ (.token .range _ _ (.ended p)) => .error ⟨.unfinishedClass, p⟩
  | .token _ _ _ (.token .range _ _ (.failed p)) => .error ⟨.unrecognizedCharacter, p⟩
  | .token _ x _ rest => (items rest).map (cons (.ofChar x))

/-- Skip a leading negation. -/
def negation : Tokens → Bool × Tokens
  | .token .negate _ _ rest => (true, rest)
  | ts => (false, ts)

/-- Take a closing bracket in the first place for a character. -/
def leadingBracket : Tokens → List Range × Tokens
  | .token .classEnd c _ rest => ([Range.ofChar c], rest)
  | ts => ([], ts)

/-- Read a class from behind its opening bracket. -/
def read (ts : Tokens) : Except SyntaxError CharacterClass :=
  let (negated, ts) := negation ts
  let (first, ts) := leadingBracket ts
  match items ts with
  | .error e => .error e
  | .ok c =>
    let ranges := first ++ c.ranges
    .ok { c with ranges := if negated then Range.complement ranges else ranges }

/-! ## Progress -/

theorem length_rest_items {ts : Tokens} {c : CharacterClass} (h : items ts = .ok c) :
    c.rest.length < ts.length := by
  fun_induction items ts generalizing c with
  | case1 | case2 | case4 | case6 | case7 => exact absurd h (by simp)
  | case3 =>
    obtain rfl := by simpa using h
    simp [length]
  | case5 _ _ _ _ _ _ _ _ _ _ _ ih =>
    obtain ⟨d, hd, rfl⟩ := SyntaxError.map_eq_ok_iff.1 h
    have := ih hd
    simp only [cons, length]
    omega
  | case8 _ _ _ _ _ _ _ _ ih =>
    obtain ⟨d, hd, rfl⟩ := SyntaxError.map_eq_ok_iff.1 h
    have := ih hd
    simp only [cons, length]
    omega

theorem length_negation_le (ts : Tokens) : (negation ts).2.length ≤ ts.length := by
  unfold negation
  split <;> simp [length]

theorem length_leadingBracket_le (ts : Tokens) : (leadingBracket ts).2.length ≤ ts.length := by
  unfold leadingBracket
  split <;> simp [length]

theorem length_rest_read {ts : Tokens} {c : CharacterClass} (h : read ts = .ok c) :
    c.rest.length < ts.length := by
  simp only [read] at h
  split at h
  · exact absurd h (by simp)
  · rename_i d hd
    obtain rfl := by simpa using h
    have h₁ := length_rest_items hd
    have h₂ := length_leadingBracket_le (negation ts).2
    have h₃ := length_negation_le ts
    exact Nat.lt_of_lt_of_le h₁ (Nat.le_trans h₂ h₃)

/-- `read`, with the fact that it leaves fewer tokens. -/
def readShorter (ts : Tokens) :
    { r : Except SyntaxError CharacterClass // ∀ c, r = .ok c → c.rest.length < ts.length } :=
  ⟨read ts, fun _ h => length_rest_read h⟩

end CharacterClass

end MaximalMunch
