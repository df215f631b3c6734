import MaximalMunch.NFA.Basic

/-!
# Silent closures by a growing list

The silent closure of some states by one list and an index that goes along it. A turn lists the states behind
the entry at the index, each one that is not listed yet, at the end of the list. So the list grows while the
index goes along it, and it is sorted when the index has come to its end.

- `Listing.enlist` : states at the end of a list, each one once
- `Listing.turn`   : one turn, which fails at a number without a state
- `Listing.Turns`  : the turns of the loop, whether they end or not
-/

namespace MaximalMunch

namespace NFA

namespace Listing

variable {V : Type}

/-- There is no state with this number. -/
structure Absent where
  number : Nat
  deriving DecidableEq, Repr

/-- List states, each one that is not listed yet. -/
def enlist (listed qs : List Nat) : List Nat :=
  qs.foldl (fun listed q => if q ∈ listed then listed else listed ++ [q]) listed

/-- List what silent edges lead to from the state `q`. -/
def turn (n : NFA V) (listed : List Nat) (q : Nat) : Except Absent (List Nat) :=
  match n.states[q]? with
  | none => .error ⟨q⟩
  | some s => .ok (enlist listed s.silent.toList)

/-- From the index `i` on, the loop comes to `x` after some turns. -/
inductive Turns (n : NFA V) : Nat → List Nat → Nat → Except Absent (List Nat) → Prop where
  | done {listed : List Nat} {i : Nat} :
      listed[i]? = none → Turns n 0 listed i (.ok listed.mergeSort)
  | absent {listed : List Nat} {i q : Nat} {a : Absent} :
      listed[i]? = some q → turn n listed q = .error a → Turns n 1 listed i (.error a)
  | turn {k : Nat} {listed listed' : List Nat} {i q : Nat} {x : Except Absent (List Nat)} :
      listed[i]? = some q → turn n listed q = .ok listed' → Turns n k listed' (i + 1) x →
        Turns n (k + 1) listed i x

end Listing

end NFA

end MaximalMunch
