import MaximalMunch.Edge

/-!
# Nondeterministic automata

An `NFA` keeps its states in an array and refers to them by number, in the order of their creation. A state
has edges over code points, silent edges that read nothing, and possibly a value that it accepts.

- `NFA.addEmpty`, `NFA.addValue` : a new state behind all others
- `NFA.addEdges`  : edges over ranges
- `NFA.addSilent` : a silent edge; none leads from a state to itself, and none is kept twice
- `NFA.addAll`    : additions one after another

All views (`edges`, `silent`, `value?`) answer "nothing" for a number without a state.
-/

namespace MaximalMunch

namespace NFA

/-- A state, its edges in the order of their creation. -/
structure State (V : Type) where
  edges : Array Edge := #[]
  silent : Array Nat := #[]
  value : Option V := none
  deriving DecidableEq, Repr

end NFA

/-- A nondeterministic automaton with silent edges. -/
structure NFA (V : Type) where
  states : Array (NFA.State V) := #[]
  deriving DecidableEq, Repr

namespace NFA

variable {V : Type}

def empty : NFA V := {}

def size (n : NFA V) : Nat := n.states.size

/-! ## Views -/

def edges (n : NFA V) (q : Nat) : List Edge :=
  match n.states[q]? with
  | some s => s.edges.toList
  | none => []

def silent (n : NFA V) (q : Nat) : List Nat :=
  match n.states[q]? with
  | some s => s.silent.toList
  | none => []

def value? (n : NFA V) (q : Nat) : Option V :=
  match n.states[q]? with
  | some s => s.value
  | none => none

/-- The edges that leave any state of a list. -/
def edgesOf (n : NFA V) (qs : List Nat) : List Edge := qs.flatMap n.edges

/-- The values that the states of a list accept. -/
def valuesOf (n : NFA V) (qs : List Nat) : List V := qs.filterMap n.value?

/-! ## Growth -/

/-- Add a state. Its number is the size that the automaton had before. -/
def addState (n : NFA V) (value : Option V) : NFA V :=
  { states := n.states.push { value } }

/-- Add a state that accepts nothing. -/
def addEmpty (n : NFA V) : NFA V := n.addState none

/-- Add a state that accepts a value. -/
def addValue (n : NFA V) (v : V) : NFA V := n.addState (some v)

/-- Add edges from one state to another. -/
def addEdges (n : NFA V) (source : Nat) (ranges : List Range) (target : Nat) : NFA V :=
  { states := n.states.modify source fun s =>
      { s with edges := s.edges ++ ranges.map (Edge.ofRange · target) } }

def addEdge (n : NFA V) (source : Nat) (r : Range) (target : Nat) : NFA V :=
  n.addEdges source [r] target

/-- Add a silent edge, unless it would be a loop or is there already. -/
def addSilent (n : NFA V) (source target : Nat) : NFA V :=
  if source = target then n
  else
    { states := n.states.modify source fun s =>
        if target ∈ s.silent then s else { s with silent := s.silent.push target } }

/-! ## Additions in turn -/

/-- An addition to an automaton. -/
inductive Addition (V : Type) where
  | state
  | value (v : V)
  | edge (source : Nat) (r : Range) (target : Nat)
  | silent (source target : Nat)

/-- The automaton with the addition. -/
def Addition.apply (n : NFA V) : Addition V → NFA V
  | .state => n.addEmpty
  | .value v => n.addValue v
  | .edge source r target => n.addEdge source r target
  | .silent source target => n.addSilent source target

/-- Additions one after another. -/
def addAll : NFA V → List (Addition V) → NFA V
  | n, [] => n
  | n, a :: as => addAll (a.apply n) as

/-! ## Sizes -/

@[simp] theorem size_addState (n : NFA V) (v : Option V) : (n.addState v).size = n.size + 1 := by
  simp [addState, size]

@[simp] theorem size_addEmpty (n : NFA V) : n.addEmpty.size = n.size + 1 := size_addState ..

@[simp] theorem size_addValue (n : NFA V) (v : V) : (n.addValue v).size = n.size + 1 :=
  size_addState ..

@[simp] theorem size_addEdges (n : NFA V) (q : Nat) (rs : List Range) (t : Nat) :
    (n.addEdges q rs t).size = n.size := by
  simp [addEdges, size]

@[simp] theorem size_addEdge (n : NFA V) (q : Nat) (r : Range) (t : Nat) :
    (n.addEdge q r t).size = n.size := size_addEdges ..

@[simp] theorem size_addSilent (n : NFA V) (q t : Nat) : (n.addSilent q t).size = n.size := by
  unfold addSilent
  split <;> simp [size]

end NFA

end MaximalMunch
