/-!
# Code points

Automata read *code points*. A code point is an integer: the scalar value of a character, or the
end mark that is read behind the last character of a text.

- `endMark`    : the symbol behind the text
- `greatest`   : the largest character that a pattern can match
- `toChar?`    : the character of a code point; the end mark, surrogates and numbers beyond the
  scalar values have none

A character above `greatest` keeps its value, so that a text can hold it; no pattern leads over it.
-/

namespace MaximalMunch

namespace CodePoint

/-- The symbol read behind the last character of a text. -/
def endMark : Int := -1

/-- The largest code point that a pattern can match. -/
def greatest : Int := 0xFFFF

def ofChar (c : Char) : Int := Int.ofNat c.toNat

def toChar? : Int → Option Char
  | .ofNat n => if h : n.isValidChar then some (Char.ofNatAux n h) else none
  | .negSucc _ => none

@[simp] theorem toChar?_ofChar (c : Char) : toChar? (ofChar c) = some c := by
  have h : c.toNat.isValidChar := c.valid
  exact dif_pos h

@[simp] theorem toChar?_endMark : toChar? endMark = none := rfl

theorem ofChar_injective {c d : Char} (h : ofChar c = ofChar d) : c = d := by
  have := congrArg toChar? h
  simpa using this

theorem ofChar_le_iff {c d : Char} : ofChar c ≤ ofChar d ↔ c ≤ d :=
  Int.ofNat_le.trans (UInt32.le_iff_toNat_le.symm.trans Char.le_def.symm)

theorem ofChar_nonneg (c : Char) : 0 ≤ ofChar c := Int.natCast_nonneg _

end CodePoint

end MaximalMunch
