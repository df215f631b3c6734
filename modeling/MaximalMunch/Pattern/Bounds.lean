import MaximalMunch.SyntaxError
import MaximalMunch.Token.Basic
import MaximalMunch.Word

/-!
# Bounds of a repetition

What stands between braces: a least and a greatest number, either of which may be missing.

- `Bounds.number`    : a run of digits
- `Bounds.read`      : the whole specifier, from behind the opening brace
- `length_rest_read` : reading bounds leaves fewer tokens

Without a comma both bounds are equal. A missing least number is zero, and a missing number behind a comma
means that there is no limit.
-/

namespace MaximalMunch

/-- The bounds of a repetition and the tokens that follow. -/
structure Bounds where
  min : Nat
  max : Option Nat
  rest : Tokens

namespace Bounds

open Tokens

/-- The value of a digit. -/
def digitValue (c : Char) : Nat := c.toNat - '0'.toNat

/-- Read the digits in front and the number they make behind `n`, if there are any. A number that does not
fit a word is refused at the digit that makes it too large. -/
def number (n : Option Nat) : Tokens → Except SyntaxError (Option Nat × Tokens)
  | .token .digit c p rest =>
    match Word.ofNat? (n.getD 0 * 10 + digitValue c) with
    | some m => number (some m) rest
    | none => .error ⟨.invalidRepeat, p⟩
  | ts => .ok (n, ts)

/-- Read the closing brace. -/
def close (min : Nat) (max : Option Nat) : Tokens → Except SyntaxError Bounds
  | .token .repeatEnd _ _ rest => .ok ⟨min, max, rest⟩
  | .failed p => .error ⟨.unrecognizedCharacter, p⟩
  | ts => .error ⟨.unfinishedRepeat, ts.position⟩

/-- Read the closing brace behind a greatest number. That it is below the least one is found with the token
behind it, whatever this is. -/
def closeOrdered (min : Nat) (max : Option Nat) : Tokens → Except SyntaxError Bounds
  | .failed p => .error ⟨.unrecognizedCharacter, p⟩
  | ts =>
    if max.any (· < min) then .error ⟨.invalidRepeat, ts.position⟩ else close min max ts

/-- Read bounds from behind their opening brace. -/
def read (ts : Tokens) : Except SyntaxError Bounds :=
  match number none ts with
  | .error e => .error e
  | .ok (min, .token .comma _ _ rest) =>
    match number none rest with
    | .error e => .error e
    | .ok (max, ts) => closeOrdered (min.getD 0) max ts
  | .ok (min, ts) => close (min.getD 0) (some (min.getD 0)) ts

/-! ## Progress -/

theorem length_number_le {n m : Option Nat} {ts rest : Tokens} (h : number n ts = .ok (m, rest)) :
    rest.length ≤ ts.length := by
  fun_induction number n ts with
  | case1 _ _ _ _ _ _ ih =>
    have := ih h
    simp only [length]
    omega
  | case2 => exact absurd h (by simp)
  | case3 =>
    obtain ⟨-, rfl⟩ := by simpa using h
    exact Nat.le_refl _

theorem length_rest_close {min : Nat} {max : Option Nat} {ts : Tokens} {b : Bounds}
    (h : close min max ts = .ok b) : b.rest.length < ts.length := by
  unfold close at h
  split at h
  · obtain rfl := by simpa using h
    simp [length]
  · exact absurd h (by simp)
  · exact absurd h (by simp)

theorem length_rest_closeOrdered {min : Nat} {max : Option Nat} {ts : Tokens} {b : Bounds}
    (h : closeOrdered min max ts = .ok b) : b.rest.length < ts.length := by
  unfold closeOrdered at h
  split at h
  · exact absurd h (by simp)
  · split at h
    · exact absurd h (by simp)
    · exact length_rest_close h

theorem length_rest_read {ts : Tokens} {b : Bounds} (h : read ts = .ok b) :
    b.rest.length < ts.length := by
  unfold read at h
  split at h
  · exact absurd h (by simp)
  · rename_i hmin
    have h₁ := length_number_le hmin
    split at h
    · exact absurd h (by simp)
    · rename_i hmax
      have h₂ := length_number_le hmax
      have h₃ := length_rest_closeOrdered h
      simp only [length] at h₁
      omega
  · rename_i hmin
    exact Nat.lt_of_lt_of_le (length_rest_close h) (length_number_le hmin)

end Bounds

end MaximalMunch
