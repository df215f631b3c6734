import MaximalMunch.Tree.Basic
import MaximalMunch.Word

/-!
# Size of a tree

How many automaton states a tree needs.

- `Tree.size`  : the number of states, without any limit
- `Tree.size?` : the same computed in words, nothing if some intermediate result does not fit. A
  repetition asks for the size of its child even where it repeats it no times
-/

namespace MaximalMunch

namespace Tree

mutual

/-- The number of states that a tree adds to an automaton. -/
def size : Tree → Nat
  | .characters _ => 1
  | .sequence ts => sizeSum ts
  | .choice ts => sizeSum ts + 1
  | .repetition t _ (some max) => max * size t + 1
  | .repetition t min none => min * size t + size t + 1 + 1

/-- The states of several trees together. -/
def sizeSum : List Tree → Nat
  | [] => 0
  | t :: ts => size t + sizeSum ts

end

mutual

/-- The number of states, if it can be computed in words. -/
def size? : Tree → Option Nat
  | .characters _ => some 1
  | .sequence ts => sizeFrom? 0 ts
  | .choice ts => sizeFrom? 1 ts
  | .repetition t _ (some max) =>
    match size? t with
    | none => none
    | some n => (Word.mul? max n).bind (Word.add? · 1)
  | .repetition t min none =>
    match size? t with
    | none => none
    | some n =>
      -- the required copies, the loop, its entry, and the common end
      ((Word.mul? min n).bind (Word.add? · n)).bind (Word.add? · 1) |>.bind (Word.add? · 1)

/-- A sum of words and the sizes of trees. -/
def sizeFrom? (sum : Nat) : List Tree → Option Nat
  | [] => some sum
  | t :: ts =>
    match size? t with
    | none => none
    | some n =>
      match Word.add? sum n with
      | none => none
      | some sum => sizeFrom? sum ts

end

end Tree

end MaximalMunch
