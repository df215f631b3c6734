import MaximalMunch.NFA.Basic
import MaximalMunch.Tree.Basic

/-!
# Lowering a tree

`Tree.lower` adds the states and edges of a tree to an automaton. It begins at a state that is there and
answers the state in which the words of the tree end.

- Characters add one state and an edge to it for each range.
- A sequence begins each child where the one before it ends.
- A choice adds the common end first, begins all children at one state, and joins them in the end.
- A repetition adds the required copies, then its end, which each copy from there on may leave for. Without
  an upper limit the last copy is a loop that begins at a state of its own, so that no other edge of the
  state before it is followed again.
-/

namespace MaximalMunch

namespace Tree

variable {V : Type}

mutual

/-- Add a tree behind the state `source`: the automaton, and the state behind the tree. -/
def lower : Tree → NFA V → Nat → NFA V × Nat
  | .characters rs, n, source =>
    let next := n.size
    (n.addEmpty.addEdges source rs next, next)
  | .sequence ts, n, source => lowerSequence ts n source
  | .choice ts, n, source =>
    let next := n.size
    (lowerChoice ts n.addEmpty source next, next)
  | .repetition t min max, n, source =>
    -- the required copies
    let (n, last) := Nat.repeat (fun (n, last) => lower t n last) min (n, source)
    let next := n.size
    let n := n.addEmpty.addSilent last next
    match max with
    | some max =>
      -- each optional copy may be the last one
      let copy : NFA V × Nat → NFA V × Nat := fun (n, last) =>
        let (n, last) := lower t n last
        (n.addSilent last next, last)
      ((Nat.repeat copy (max - min) (n, last)).1, next)
    | none =>
      -- a loop between `entry` and the end of the copy
      let entry := n.size
      let (n, last) := lower t (n.addEmpty.addSilent last entry) entry
      ((n.addSilent last entry).addSilent last next, next)

/-- Add trees one behind the other. -/
def lowerSequence : List Tree → NFA V → Nat → NFA V × Nat
  | [], n, last => (n, last)
  | t :: ts, n, last =>
    let (n, last) := lower t n last
    lowerSequence ts n last

/-- Add trees that all begin at `source` and end in `next`. -/
def lowerChoice : List Tree → NFA V → Nat → Nat → NFA V
  | [], n, _, _ => n
  | t :: ts, n, source, next =>
    let (n, last) := lower t n source
    lowerChoice ts (n.addSilent last next) source next

end

end Tree

end MaximalMunch
