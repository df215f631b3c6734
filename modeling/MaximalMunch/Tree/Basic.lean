import MaximalMunch.Range

/-!
# Syntax trees

What a pattern means, whatever dialect it is written in.

- `Tree`       : the tree
- `Tree.seqOf`, `Tree.choiceOf`, `Tree.repeatOf` : trees that leave out a level that changes nothing
- `Tree.Spells` : the words of a tree, one code point after another
-/

namespace MaximalMunch

/-- A syntax tree. -/
inductive Tree where
  /-- One code point of a list of ranges. -/
  | characters (ranges : List Range)
  /-- All children, one behind the other. -/
  | sequence (children : List Tree)
  /-- Any one of the children. -/
  | choice (children : List Tree)
  /-- The child, at least `min` times, and at most `max` times if there is a limit. -/
  | repetition (child : Tree) (min : Nat) (max : Option Nat)
  deriving Repr

namespace Tree

/-- The tree of one character. -/
def char (c : Char) : Tree := characters [Range.ofChar c]

/-- The tree of any one character. -/
def any : Tree := characters [Range.any]

/-- A sequence; one child needs none. -/
def seqOf : List Tree → Tree
  | [t] => t
  | ts => sequence ts

/-- A choice; one child needs none. -/
def choiceOf : List Tree → Tree
  | [t] => t
  | ts => choice ts

/-- A repetition; exactly once needs none. -/
def repeatOf (t : Tree) (min : Nat) (max : Option Nat) : Tree :=
  if min = 1 ∧ max = some 1 then t else repetition t min max

/-! ## The words of a tree -/

/-- `t.Spells w`: the tree stands for the word `w`, among others. -/
inductive Spells : Tree → List Int → Prop where
  | characters {rs : List Range} {r : Range} {p : Int} :
      r ∈ rs → r.Covers p → Spells (.characters rs) [p]
  | nil : Spells (.sequence []) []
  | cons {t : Tree} {ts : List Tree} {u v : List Int} :
      Spells t u → Spells (.sequence ts) v → Spells (.sequence (t :: ts)) (u ++ v)
  | choice {t : Tree} {ts : List Tree} {w : List Int} :
      t ∈ ts → Spells t w → Spells (.choice ts) w
  | repetition {t : Tree} {min : Nat} {max : Option Nat} {ws : List (List Int)} :
      min ≤ ws.length → (∀ m, max = some m → ws.length ≤ m) → (∀ w ∈ ws, Spells t w) →
        Spells (.repetition t min max) ws.flatten

end Tree

end MaximalMunch
