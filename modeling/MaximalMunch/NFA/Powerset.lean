import Std.Data.HashMap
import MaximalMunch.DFA.Basic
import MaximalMunch.NFA.Closure
import MaximalMunch.Region

/-!
# Powerset construction

Turns the part of an `NFA` that is reached from a state into a `DFA`. A deterministic state stands for a
*configuration*, a closed set of states given in ascending order.

- `Powerset.register`  : the number of a configuration, which is new if it was not met before
- `Powerset.connect`   : more edges of one deterministic state, one for each overlap region
- `Powerset.run`       : the work list, last in first out
- `NFA.determinize`    : the construction from a start state

A configuration may carry one value. With two or more different ones the construction stops with a
`Fault.collision` that lists them in the order of the states.

The work list ends: there are `2 ^ n` lists that name a set of `n` states, and each is registered once.
-/

namespace MaximalMunch

namespace NFA

/-- Why there is no deterministic automaton. -/
inductive Fault (V : Type) where
  /-- One configuration carries all of these values. -/
  | collision (values : List V)
  /-- The edges of a state were not in ascending order. -/
  | overlap (edges : DFA.Overlap)
  deriving DecidableEq, Repr

/-- The construction so far. -/
structure Powerset (V : Type) where
  states : Array (DFA.State V) := #[]
  index : Std.HashMap (List Nat) Nat := {}
  pending : List (Nat × List Nat) := []

namespace Powerset

variable {V : Type}

/-! ## What is left to register -/

/-- How many lists of states are not registered. -/
def unregistered (n : NFA V) (p : Powerset V) : Nat :=
  (sublists (List.range n.size)).countP fun c => !p.index.contains c

/-- `p'` has registered more than `p`, or has the same work left. -/
def Advances (n : NFA V) (p p' : Powerset V) : Prop :=
  p'.unregistered n < p.unregistered n ∨
    (p'.unregistered n = p.unregistered n ∧ p'.pending = p.pending)

theorem Advances.refl (n : NFA V) (p : Powerset V) : Advances n p p := Or.inr ⟨rfl, rfl⟩

theorem Advances.trans {n : NFA V} {p q r : Powerset V} (h : Advances n p q) (h' : Advances n q r) :
    Advances n p r := by
  unfold Advances at *
  rcases h with h | ⟨h, hp⟩ <;> rcases h' with h' | ⟨h', hp'⟩
  · exact Or.inl (by omega)
  · exact Or.inl (by omega)
  · exact Or.inl (by omega)
  · exact Or.inr ⟨by omega, hp'.trans hp⟩

/-- A list of states that was not registered no longer counts once it is. -/
theorem advances_insert {n : NFA V} {p : Powerset V} {config : List Nat}
    (hc : config.Sublist (List.range n.size)) (h : ¬ p.index.contains config = true) (states : Array (DFA.State V))
    (q : Nat) :
    Advances n p { states, index := p.index.insert config q, pending := (q, config) :: p.pending } := by
  refine Or.inl (countP_lt_countP config ?_ (mem_sublists_iff.2 hc) ?_ (by simp))
  · intro c _ hnew
    simp only [Std.HashMap.contains_insert, Bool.not_or, Bool.and_eq_true] at hnew
    exact hnew.2
  · have : p.index.contains config = false := by simpa using h
    simp [this]

/-- A result of work on `p`, and the construction after it. -/
structure Progress (n : NFA V) (p : Powerset V) (α : Type) where
  result : α
  after : Powerset V
  advances : Advances n p after

/-! ## Registering and connecting -/

variable [DecidableEq V]

/-- The one value among the values of a configuration, if there is any. -/
def valueOf? (values : List V) : Except (Fault V) (Option V) :=
  match values.eraseDups with
  | [] => .ok none
  | [v] => .ok (some v)
  | vs => .error (.collision vs)

/-- The number of a configuration. A new one gets the next number and waits for its edges. -/
def register (n : NFA V) (p : Powerset V) (config : List Nat)
    (hc : config.Sublist (List.range n.size)) : Except (Fault V) (Progress n p Nat) :=
  if h : p.index.contains config = true then
    -- The default is out of reach: the index holds the configuration.
    .ok ⟨p.index.getD config 0, p, .refl n p⟩
  else
    match valueOf? (n.valuesOf config) with
    | .error f => .error f
    | .ok value =>
      let q := p.states.size
      .ok
        { result := q
          after :=
            { states := p.states.push { value }
              index := p.index.insert config q
              pending := (q, config) :: p.pending }
          advances := advances_insert hc h _ _ }

/-- Add an edge for each region to `state`. -/
def connect (n : NFA V) (p : Powerset V) (state : DFA.State V) :
    List Region → Except (Fault V) (Progress n p (DFA.State V))
  | [] => .ok ⟨state, p, .refl n p⟩
  | r :: rs =>
    match register n p (n.closure r.targets) (closure_sublist_range n _) with
    | .error f => .error f
    | .ok ⟨q, p₁, h₁⟩ =>
      match state.addEdge (.ofRange r.toRange q) with
      | .error o => .error (.overlap o)
      | .ok state =>
        match connect n p₁ state rs with
        | .error f => .error f
        | .ok ⟨state, p₂, h₂⟩ => .ok ⟨state, p₂, h₁.trans h₂⟩

/-! ## The construction -/

/-- Give the pending states their edges until none is left. -/
def run (n : NFA V) : Powerset V → Except (Fault V) (Array (DFA.State V))
  | ⟨states, _, []⟩ => .ok states
  | ⟨states, index, (q, config) :: pending⟩ =>
    -- The default is out of reach: a pending number has a state.
    match connect n ⟨states, index, pending⟩ (states.getD q {}) (Region.ofEdges (n.edgesOf config)) with
    | .error f => .error f
    | .ok ⟨state, p, _h⟩ => run n { p with states := p.states.setIfInBounds q state }
termination_by p => (p.unregistered n, p.pending.length)
decreasing_by
  -- Either a configuration was registered, or only the entry at hand is gone.
  rcases _h with h | ⟨h, hpending⟩
  · exact Prod.Lex.left _ _ h
  · simp only [unregistered] at h ⊢
    rw [h]
    apply Prod.Lex.right
    simp only [hpending, List.length_cons]
    omega

end Powerset

variable {V : Type} [DecidableEq V]

/-- The deterministic automaton of what `start` reaches. -/
def determinize (n : NFA V) (start : Nat) : Except (Fault V) (DFA V) :=
  match Powerset.register n {} (n.closure [start]) (closure_sublist_range n _) with
  | .error f => .error f
  | .ok ⟨q, p, _⟩ =>
    match Powerset.run n p with
    | .error f => .error f
    | .ok states => .ok { states, start := q }

end NFA

end MaximalMunch
