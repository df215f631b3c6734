import MaximalMunch.DFA.Basic
import MaximalMunch.Scanner.Input

/-!
# Walks

A walk follows a deterministic automaton from its start as far as there are edges, and remembers the last
accepting state that it met behind at least one edge.

- `Walk.step?`   : one edge
- `Walk.advance` : the whole walk, over code points that were read before and then over the input

A walk reads a code point only when it has followed everything before it. Behind the end of the text a
walk is at most as long as the automaton has states: with more steps it would return to a state on end
marks alone.
-/

namespace MaximalMunch

/-- How far a walk has come, and the longest match on its way: the number of code points and the value. -/
structure Walk (V : Type) where
  state : Nat
  steps : Nat := 0
  best : Option (Nat × V) := none
  deriving DecidableEq, Repr

namespace Walk

variable {V : Type}

/-- Follow the edge over one code point. -/
def step? (d : DFA V) (w : Walk V) (p : Int) : Option (Walk V) :=
  match d.follow? w.state p with
  | none => none
  | some q =>
    some
      { state := q
        steps := w.steps + 1
        best :=
          match d.value? q with
          | some v => some (w.steps + 1, v)
          | none => w.best }

/-- Where a walk ends: the walk, the input behind it, and the code points read on the way, newest first. -/
structure Outcome (V : Type) where
  walk : Walk V
  input : Input
  fresh : List Int

/-- Walk over the code points of `ahead` and then over the input. At most `marks` end marks are read. -/
def advance (d : DFA V) (w : Walk V) (ahead : List Int) (input : Input) (fresh : List Int)
    (marks : Nat) : Outcome V :=
  match ahead with
  | p :: ahead =>
    match w.step? d p with
    | none => ⟨w, input, fresh⟩
    | some w => advance d w ahead input fresh marks
  | [] =>
    -- An automaton without a cycle over end marks misses an edge before this.
    if _h : input.rest = [] ∧ marks = 0 then ⟨w, input, fresh⟩
    else
      let r := input.read
      match w.step? d r.1 with
      | none => ⟨w, r.2, r.1 :: fresh⟩
      | some w => advance d w [] r.2 (r.1 :: fresh) (if input.rest = [] then marks - 1 else marks)
termination_by ahead.length + input.rest.length + marks
decreasing_by
  · simp only [List.length_cons]
    omega
  · rw [Input.rest_read]
    cases hr : input.rest with
    | nil =>
      have hmarks : marks ≠ 0 := fun h => _h ⟨hr, h⟩
      simp only [List.length_nil, List.tail_nil, dif_pos]
      omega
    | cons c cs => simp

/-- The characters read on the way and the characters still to come are the characters of the input. -/
theorem text_advance (d : DFA V) (w : Walk V) (ahead : List Int) (input : Input) (fresh : List Int)
    (marks : Nat) :
    (advance d w ahead input fresh marks).fresh.reverse.filterMap CodePoint.toChar? ++
        (advance d w ahead input fresh marks).input.rest =
      fresh.reverse.filterMap CodePoint.toChar? ++ input.rest := by
  have hread : ∀ (input : Input) (fresh : List Int),
      (input.read.1 :: fresh).reverse.filterMap CodePoint.toChar? ++ input.read.2.rest =
        fresh.reverse.filterMap CodePoint.toChar? ++ input.rest := by
    intro input fresh
    rw [← input.text_read, List.reverse_cons, List.filterMap_append, List.append_assoc]
    cases h : CodePoint.toChar? input.read.1 <;> simp [h]
  fun_induction advance d w ahead input fresh marks with
  | case1 => rfl
  | case2 _ _ _ _ _ _ _ _ ih => exact ih
  | case3 => rfl
  | case4 _ input fresh => exact hread input fresh
  | case5 _ input fresh _ _ _ _ _ ih => exact ih.trans (hread input fresh)

end Walk

end MaximalMunch
