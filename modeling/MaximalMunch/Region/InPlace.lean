import MaximalMunch.Region

/-!
# The sweep in place

The sweep over one list of edges that it rewrites as it goes along, with an index to the edge at which the
next region begins. Each round makes one region. Every index and every new range is checked, and a check
that fails ends the sweep with a fault.

- `InPlace.round`  : one round, which has three cases
- `InPlace.Rounds` : the rounds of a sweep, whether they end or not
-/

namespace MaximalMunch

namespace Region

namespace InPlace

/-- Why a sweep would stop before its end. -/
inductive Fault where
  /-- There is no edge at this index. -/
  | outside (index : Nat)
  /-- This range of an edge holds no code point. -/
  | improper (range : Range)
  deriving DecidableEq, Repr

/-! ## Access to the edges -/

/-- The edge at an index. -/
def get (es : List Edge) (i : Nat) : Except Fault Edge :=
  match es[i]? with
  | some e => .ok e
  | none => .error (.outside i)

/-- Replace the edge at an index. -/
def set (es : List Edge) (i : Nat) (e : Edge) : Except Fault (List Edge) :=
  if i < es.length then .ok (es.set i e) else .error (.outside i)

/-- Remove the edge at an index. -/
def erase (es : List Edge) (i : Nat) : Except Fault (List Edge) :=
  if i < es.length then .ok (es.eraseIdx i) else .error (.outside i)

/-- The edges from the index `i` up to `j`. -/
def slice (es : List Edge) (i j : Nat) : Except Fault (List Edge) :=
  if i ≤ j ∧ j ≤ es.length then .ok ((es.take j).drop i) else .error (.outside j)

/-- What is left of an edge from `lo` on. -/
def rebuild (e : Edge) (lo : Int) : Except Fault Edge :=
  if lo ≤ e.hi then .ok { e with lo } else .error (.improper ⟨lo, e.hi⟩)

/-! ## One round -/

/-- From the index `last` on, the first index without an edge that begins at `lo`, and the least end of the
edges before it, `lowest` included. -/
def extent (es : List Edge) (lo : Int) (last : Nat) (lowest : Int) : Except Fault (Nat × Int) :=
  if last < es.length then
    match get es last with
    | .error f => .error f
    | .ok e =>
      if e.lo = lo then extent es lo (last + 1) (min lowest e.hi) else .ok (last, lowest)
  else .ok (last, lowest)
termination_by es.length - last

/-- Where a region ends that lies under edges with the least end `lowest`, if the next edge is at `last`. -/
def stopBefore (es : List Edge) (last : Nat) (lowest : Int) : Except Fault Int := do
  if last < es.length then
    let next ← get es last
    return min lowest (next.lo - 1)
  else return lowest

/-- Move the begin of the edge at an index behind `stop`. An edge that does not go on there is removed. -/
def trim (stop : Int) (es : List Edge) (i : Nat) : Except Fault (List Edge) := do
  let e ← get es i
  if e.hi ≤ stop then erase es i
  else
    let rest ← rebuild e (stop + 1)
    set es i rest

/-- Trim `count` edges from the index `i` on, the last one first. -/
def cut (stop : Int) (i : Nat) : Nat → List Edge → Except Fault (List Edge)
  | 0, es => return es
  | count + 1, es => do
    let es ← trim stop es (i + count)
    cut stop i count es

/-- The region of the edges that begin where `e` does, from the index `i` on. -/
def together (e : Edge) (es : List Edge) (i : Nat) : Except Fault (Region × List Edge × Nat) := do
  let (last, lowest) ← extent es e.lo (i + 1) e.hi
  let stop ← stopBefore es last lowest
  let front ← slice es i last
  let es ← cut stop i (last - i) es
  return ({ lo := e.lo, hi := stop, targets := (front.map Edge.target).eraseDups }, es, i)

/-- The region that begins at the index `i`, the edges that are left, and the index to go on with. -/
def round (es : List Edge) (i : Nat) : Except Fault (Region × List Edge × Nat) := do
  let e ← get es i
  if i + 1 < es.length then
    let next ← get es (i + 1)
    if e.hi < next.lo then
      -- the edge lies before all others
      return ({ lo := e.lo, hi := e.hi, targets := [e.target] }, es, i + 1)
    else if e.lo < next.lo then
      -- only the part before the next edge lies alone
      let rest ← rebuild e next.lo
      let es ← set es i rest
      return ({ lo := e.lo, hi := next.lo - 1, targets := [e.target] }, es, i)
    else together e es i
  else return ({ lo := e.lo, hi := e.hi, targets := [e.target] }, es, i + 1)

/-! ## All rounds -/

/-- From the index `i` on, the sweep comes to `x` after some rounds. -/
inductive Rounds : Nat → List Edge → Nat → Except Fault (List Region) → Prop where
  | done {es : List Edge} {i : Nat} : es.length ≤ i → Rounds 0 es i (.ok [])
  | fault {es : List Edge} {i : Nat} {f : Fault} :
      i < es.length → round es i = .error f → Rounds 1 es i (.error f)
  | round {k : Nat} {es es' : List Edge} {i i' : Nat} {r : Region} {x : Except Fault (List Region)} :
      i < es.length → round es i = .ok (r, es', i') → Rounds k es' i' x →
        Rounds (k + 1) es i (x.map (r :: ·))

end InPlace

end Region

end MaximalMunch
