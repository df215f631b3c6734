import Mathlib.Data.List.Forall2
import MaximalMunch.NFA.Powerset

/-!
# Two constructions in lock step

The powerset construction looks at a configuration through its values, its regions and the question whether it
was met before. If the configurations of two automata correspond to each other in these respects, then the
constructions from corresponding configurations take the same steps, and they end with the same states in the
same order.

- `Powerset.Correspond` : what the correspondence has to keep
- `Powerset.Together`   : two constructions that have come to the same states
- `Powerset.InStep`     : two parts of them with one result, and together behind it
- `Powerset.run_eq`     : the work lists end alike
- `NFA.determinize_eq`  : so the automata, or the faults, are the same
-/

namespace MaximalMunch

namespace NFA

namespace Powerset

variable {V : Type}

/-- Two regions over the same code points lead to configurations that correspond. -/
def Alike (n₁ n₂ : NFA V) (R : List Nat → List Nat → Prop) (r₁ r₂ : Region) : Prop :=
  r₁.toRange = r₂.toRange ∧ R (n₁.closure r₁.targets) (n₂.closure r₂.targets)

/-- Two constructions with the same states, which stand for corresponding configurations. -/
structure Together (R : List Nat → List Nat → Prop) (p₁ p₂ : Powerset V) : Prop where
  states : p₁.states = p₂.states
  index : ∀ c₁ c₂, R c₁ c₂ → p₁.index[c₁]? = p₂.index[c₂]?
  pending : List.Forall₂ (fun x₁ x₂ => x₁.1 = x₂.1 ∧ R x₁.2 x₂.2) p₁.pending p₂.pending

theorem together_empty (R : List Nat → List Nat → Prop) : Together R ({} : Powerset V) {} where
  states := rfl
  index := by simp
  pending := .nil

/-- The entries at hand correspond. -/
theorem Together.pop {R : List Nat → List Nat → Prop} {states₁ states₂ : Array (DFA.State V)}
    {index₁ index₂ : Std.HashMap (List Nat) Nat} {q : Nat} {c : List Nat}
    {pending₁ pending₂ : List (Nat × List Nat)}
    (h : Together R ⟨states₁, index₁, (q, c) :: pending₁⟩ ⟨states₂, index₂, pending₂⟩) :
    ∃ d pending, pending₂ = (q, d) :: pending ∧ R c d ∧
      Together R ⟨states₁, index₁, pending₁⟩ ⟨states₂, index₂, pending⟩ := by
  obtain ⟨⟨q', d⟩, pending, ⟨hq, hcd⟩, hpending, heq⟩ := List.forall₂_cons_left_iff.1 h.pending
  obtain rfl : q = q' := hq
  exact ⟨d, pending, heq, hcd, h.states, h.index, hpending⟩

/-- The states at hand are replaced by the same one. -/
theorem Together.finish {R : List Nat → List Nat → Prop} {p₁ p₂ : Powerset V} (h : Together R p₁ p₂)
    (q : Nat) (state : DFA.State V) :
    Together R { p₁ with states := p₁.states.setIfInBounds q state }
      { p₂ with states := p₂.states.setIfInBounds q state } where
  states := by rw [h.states]
  index := h.index
  pending := h.pending

/-- Two parts stop at the same fault, or they have the same result and leave the constructions together. -/
def InStep (R : List Nat → List Nat → Prop) {n₁ n₂ : NFA V} {p₁ p₂ : Powerset V} {α : Type} :
    Except (Fault V) (Progress n₁ p₁ α) → Except (Fault V) (Progress n₂ p₂ α) → Prop
  | .error f₁, .error f₂ => f₁ = f₂
  | .ok x₁, .ok x₂ => x₁.result = x₂.result ∧ Together R x₁.after x₂.after
  | _, _ => False

theorem InStep.cases {R : List Nat → List Nat → Prop} {n₁ n₂ : NFA V} {p₁ p₂ : Powerset V} {α : Type}
    {x₁ : Except (Fault V) (Progress n₁ p₁ α)} {x₂ : Except (Fault V) (Progress n₂ p₂ α)} (h : InStep R x₁ x₂) :
    (∃ f, x₁ = .error f ∧ x₂ = .error f) ∨
      ∃ a p₁' h₁ p₂' h₂, x₁ = .ok ⟨a, p₁', h₁⟩ ∧ x₂ = .ok ⟨a, p₂', h₂⟩ ∧ Together R p₁' p₂' := by
  cases x₁ with
  | error f =>
      cases x₂ with
      | error g =>
          obtain rfl : f = g := h
          exact Or.inl ⟨f, rfl, rfl⟩
      | ok => exact h.elim
  | ok a₁ =>
      cases x₂ with
      | error => exact h.elim
      | ok a₂ =>
          obtain ⟨a, p₁', h₁⟩ := a₁
          obtain ⟨b, p₂', h₂⟩ := a₂
          obtain ⟨rfl, htogether⟩ : a = b ∧ Together R p₁' p₂' := h
          exact Or.inr ⟨a, p₁', h₁, p₂', h₂, rfl, rfl, htogether⟩

variable [DecidableEq V]

/-- Configurations correspond one to one, with the same values, and over the same code points they lead to
configurations that correspond. -/
structure Correspond (n₁ n₂ : NFA V) (R : List Nat → List Nat → Prop) : Prop where
  eq_iff : ∀ {b₁ b₂ c₁ c₂}, R b₁ b₂ → R c₁ c₂ → (b₁ = c₁ ↔ b₂ = c₂)
  valueOf?_eq : ∀ {c₁ c₂}, R c₁ c₂ → valueOf? (n₁.valuesOf c₁) = valueOf? (n₂.valuesOf c₂)
  regions : ∀ {c₁ c₂}, R c₁ c₂ →
    List.Forall₂ (Alike n₁ n₂ R) (Region.ofEdges (n₁.edgesOf c₁)) (Region.ofEdges (n₂.edgesOf c₂))

variable {n₁ n₂ : NFA V} {R : List Nat → List Nat → Prop} {p₁ p₂ : Powerset V} {c₁ c₂ : List Nat}

/-- A new configuration gets the same number on both sides. -/
theorem Together.push (hR : Correspond n₁ n₂ R) (h : Together R p₁ p₂) (hc : R c₁ c₂) (value : Option V) :
    Together R
      { states := p₁.states.push { value }
        index := p₁.index.insert c₁ p₁.states.size
        pending := (p₁.states.size, c₁) :: p₁.pending }
      { states := p₂.states.push { value }
        index := p₂.index.insert c₂ p₂.states.size
        pending := (p₂.states.size, c₂) :: p₂.pending } where
  states := by rw [h.states]
  index := by
    intro b₁ b₂ hb
    have heq := hR.eq_iff hc hb
    simp only [Std.HashMap.getElem?_insert, beq_iff_eq, h.states]
    by_cases hold : c₁ = b₁
    · rw [if_pos hold, if_pos (heq.1 hold)]
    · rw [if_neg hold, if_neg (mt heq.2 hold)]
      exact h.index b₁ b₂ hb
  pending := .cons ⟨congrArg Array.size h.states, hc⟩ h.pending

theorem register_inStep (hR : Correspond n₁ n₂ R) (h : Together R p₁ p₂) (hc : R c₁ c₂)
    (h₁ : c₁.Sublist (List.range n₁.size)) (h₂ : c₂.Sublist (List.range n₂.size)) :
    InStep R (register n₁ p₁ c₁ h₁) (register n₂ p₂ c₂ h₂) := by
  have hindex := h.index c₁ c₂ hc
  have hcontains : p₁.index.contains c₁ = p₂.index.contains c₂ := by
    rw [Std.HashMap.contains_eq_isSome_getElem?, Std.HashMap.contains_eq_isSome_getElem?, hindex]
  unfold register
  rw [← hR.valueOf?_eq hc]
  by_cases hold : p₁.index.contains c₁ = true
  · rw [dif_pos hold, dif_pos (hcontains ▸ hold)]
    refine ⟨?_, h⟩
    rw [Std.HashMap.getD_eq_getD_getElem?, Std.HashMap.getD_eq_getD_getElem?, hindex]
  · rw [dif_neg hold, dif_neg (hcontains ▸ hold)]
    cases valueOf? (n₁.valuesOf c₁) with
    | error f =>
        rfl
    | ok value =>
        exact ⟨congrArg Array.size h.states, h.push hR hc value⟩

/-- A state gets the same edges on both sides. -/
theorem connect_inStep (hR : Correspond n₁ n₂ R) (h : Together R p₁ p₂) (state : DFA.State V)
    {rs₁ rs₂ : List Region} (hrs : List.Forall₂ (Alike n₁ n₂ R) rs₁ rs₂) :
    InStep R (connect n₁ p₁ state rs₁) (connect n₂ p₂ state rs₂) := by
  -- Registering a target may give numbers, so the induction is over all constructions that are together.
  induction hrs generalizing p₁ p₂ state with
  | nil =>
      exact ⟨rfl, h⟩
  | @cons r₁ r₂ rs₁ rs₂ hr _ ih =>
      have hreg := register_inStep hR h hr.2 (closure_sublist_range n₁ _) (closure_sublist_range n₂ _)
      rw [connect, connect, ← hr.1]
      rcases hreg.cases with ⟨f, h₁, h₂⟩ | ⟨q, p₁', hadv₁, p₂', hadv₂, h₁, h₂, htogether⟩
      · rw [h₁, h₂]
        rfl
      · rw [h₁, h₂]
        cases hedge : state.addEdge (.ofRange r₁.toRange q) with
        | error o =>
            simp only [hedge]
            rfl
        | ok state' =>
            simp only [hedge]
            rcases (ih htogether state').cases with ⟨f, h₁, h₂⟩ | ⟨row, q₁, hadv₁, q₂, hadv₂, h₁, h₂, hafter⟩
            · rw [h₁, h₂]
              rfl
            · rw [h₁, h₂]
              exact ⟨rfl, hafter⟩

/-- The work lists take corresponding entries, so they end alike. -/
theorem run_eq (hR : Correspond n₁ n₂ R) (h : Together R p₁ p₂) : run n₁ p₁ = run n₂ p₂ := by
  -- The induction follows the first work list, and the second one comes along entry by entry.
  obtain ⟨states₂, index₂, pending₂⟩ := p₂
  fun_induction run n₁ p₁ generalizing states₂ index₂ pending₂ with
  | case1 states index =>
      obtain rfl : states = states₂ := h.states
      obtain rfl : pending₂ = [] := List.forall₂_nil_left_iff.1 h.pending
      rw [run]
  | case2 states index q c pending f hconnect =>
      obtain ⟨d, pending', rfl, hcd, hpop⟩ := h.pop
      rw [run]
      obtain rfl : states = states₂ := hpop.states
      rcases (connect_inStep hR hpop (states.getD q {}) (hR.regions hcd)).cases with
        ⟨g, h₁, h₂⟩ | ⟨row, q₁, hadv₁, q₂, hadv₂, h₁, -⟩
      · rw [hconnect] at h₁
        obtain rfl := Except.error.inj h₁
        rw [h₂]
      · rw [hconnect] at h₁
        exact absurd h₁ (by simp)
  | case3 states index q c pending row p hadv hconnect ih =>
      obtain ⟨d, pending', rfl, hcd, hpop⟩ := h.pop
      rw [run]
      obtain rfl : states = states₂ := hpop.states
      rcases (connect_inStep hR hpop (states.getD q {}) (hR.regions hcd)).cases with
        ⟨g, h₁, -⟩ | ⟨row', q₁, hadv₁, q₂, hadv₂, h₁, h₂, hafter⟩
      · rw [hconnect] at h₁
        exact absurd h₁ (by simp)
      · rw [hconnect] at h₁
        obtain ⟨rfl, rfl⟩ : row = row' ∧ p = q₁ := by simpa using h₁
        rw [h₂]
        exact ih _ _ _ (hafter.finish q row)

end Powerset

variable {V : Type} [DecidableEq V] {n₁ n₂ : NFA V} {R : List Nat → List Nat → Prop} {start₁ start₂ : Nat}

theorem determinize_eq (hR : Powerset.Correspond n₁ n₂ R)
    (hstart : R (n₁.closure [start₁]) (n₂.closure [start₂])) :
    n₁.determinize start₁ = n₂.determinize start₂ := by
  have hreg := Powerset.register_inStep hR (Powerset.together_empty R) hstart (closure_sublist_range n₁ _)
    (closure_sublist_range n₂ _)
  unfold determinize
  rcases hreg.cases with ⟨f, h₁, h₂⟩ | ⟨q, p₁, hadv₁, p₂, hadv₂, h₁, h₂, htogether⟩
  · rw [h₁, h₂]
  · rw [h₁, h₂]
    simp only [Powerset.run_eq hR htogether]

end NFA

end MaximalMunch
