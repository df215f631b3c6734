import MaximalMunch.CodePoint

/-!
# Inputs

A text that is read one code point at a time. Behind its last character it yields the end mark without
limit, but the text itself is asked for its end once only.

- `Input.read`  : the next code point and the input behind it
- `Input.polls` : how often the text was asked for a character
-/

namespace MaximalMunch

/-- The unread part of a text. -/
structure Input where
  rest : List Char
  ended : Bool := false
  polls : Nat := 0
  deriving DecidableEq, Repr

namespace Input

def ofString (s : String) : Input := { rest := s.toList }

/-- Read one code point. -/
def read (i : Input) : Int × Input :=
  match i.rest with
  | c :: rest => (CodePoint.ofChar c, { i with rest, polls := i.polls + 1 })
  | [] =>
    if i.ended then (CodePoint.endMark, i)
    else (CodePoint.endMark, { i with ended := true, polls := i.polls + 1 })

theorem rest_read (i : Input) : i.read.2.rest = i.rest.tail := by
  unfold read
  split
  · rename_i h
    simp [h]
  · rename_i h
    split <;> simp [h]

theorem toChar?_read (i : Input) : CodePoint.toChar? i.read.1 = i.rest.head? := by
  unfold read
  split
  · rename_i h
    simp [h]
  · rename_i h
    split <;> simp [h]

/-- The code point that is read and what is left hold the same characters as before. -/
theorem text_read (i : Input) : (CodePoint.toChar? i.read.1).toList ++ i.read.2.rest = i.rest := by
  rw [toChar?_read, rest_read]
  cases i.rest <;> rfl

end Input

end MaximalMunch
