import MaximalMunch.Edge

/-!
# Deterministic automata

A `DFA` keeps its states in an array and refers to them by number. The edges of a state ascend and do not
overlap, so a binary search finds the one edge that can cover a code point.

- `DFA.State.addEdge` : appends an edge, refused unless it begins behind the last one
- `DFA.State.offers`, `DFA.State.taken` : the state behind some offers, and the edges that it took
- `DFA.State.follow?` : the target of the edge that covers a code point
- `DFA.follow?`, `DFA.value?` : the same by state number
-/

namespace MaximalMunch

namespace DFA

/-- An edge was refused because it begins before the last edge of its state has ended. -/
structure Overlap where
  edge : Range
  last : Range
  deriving DecidableEq, Repr

def Overlap.message (o : Overlap) : String :=
  s!"range overlap: {o.edge.lo}..={o.edge.hi} after {o.last.lo}..={o.last.hi}"

/-- A state: its edges in ascending order, and what it accepts. -/
structure State (V : Type) where
  edges : Array Edge := #[]
  value : Option V := none
  deriving DecidableEq, Repr

namespace State

variable {V : Type}

/-- Append an edge. -/
def addEdge (s : State V) (e : Edge) : Except Overlap (State V) :=
  match s.edges.back? with
  | none => .ok { s with edges := s.edges.push e }
  | some l =>
    if l.hi < e.lo then .ok { s with edges := s.edges.push e }
    else .error ⟨e.toRange, l.toRange⟩

/-- The state behind offers of edges. It stays as it was when it refuses one. -/
def offers : State V → List Edge → State V
  | s, [] => s
  | s, e :: es =>
    match s.addEdge e with
    | .ok s => offers s es
    | .error _ => offers s es

/-- The edges that a state takes, of those it is offered in turn. -/
def taken : State V → List Edge → List Edge
  | _, [] => []
  | s, e :: es =>
    match s.addEdge e with
    | .ok s => e :: taken s es
    | .error _ => taken s es

/-- The index of the first edge in `lo ..< hi` that begins behind `p`, or `hi` if there is none. -/
def searchBegin (edges : Array Edge) (p : Int) (lo hi : Nat) (bound : hi ≤ edges.size) : Nat :=
  if h : lo < hi then
    let mid := (lo + hi) / 2
    have hmid : mid < edges.size := by omega
    if edges[mid].lo ≤ p then searchBegin edges p (mid + 1) hi bound
    else searchBegin edges p lo mid (by omega)
  else lo
termination_by hi - lo

/-- The target of the edge over `p`: only the last edge that begins at or before `p` can cover it. -/
def follow? (s : State V) (p : Int) : Option Nat :=
  match searchBegin s.edges p 0 s.edges.size (Nat.le_refl _) with
  | 0 => none
  | i + 1 =>
    match s.edges[i]? with
    | some e => if e.Covers p then some e.target else none
    | none => none

end State

end DFA

/-- A deterministic automaton whose accepting states carry values. -/
structure DFA (V : Type) where
  states : Array (DFA.State V)
  start : Nat
  deriving DecidableEq, Repr

namespace DFA

variable {V : Type}

def size (d : DFA V) : Nat := d.states.size

/-- The edges of a state; a number without a state has none. -/
def edges (d : DFA V) (q : Nat) : List Edge :=
  match d.states[q]? with
  | some s => s.edges.toList
  | none => []

/-- The state behind `q` over one code point. -/
def follow? (d : DFA V) (q : Nat) (p : Int) : Option Nat :=
  match d.states[q]? with
  | some s => s.follow? p
  | none => none

/-- What the state `q` accepts. -/
def value? (d : DFA V) (q : Nat) : Option V :=
  match d.states[q]? with
  | some s => s.value
  | none => none

end DFA

end MaximalMunch
