import MaximalMunch.NFA.Closure
import MaximalMunch.Proofs.Growth

/-!
# Silent closures are exact

The work list finds the states that are reached over silent edges, all of them and no others.

- `NFA.SilentInside`          : silent edges lead to states
- `NFA.WellFormed`            : every edge has a code point, and every edge leads to a state, which is decidable
- `NFA.silentReach_iff_path`  : silent edges read the empty word
- `NFA.mem_closure_iff_of_silentInside`, `NFA.mem_closure_iff` : the members of a closure
-/

namespace MaximalMunch

namespace NFA

variable {V : Type}

/-- Silent edges lead to states. -/
def SilentInside (n : NFA V) : Prop := ∀ q, ∀ t ∈ n.silent q, t < n.size

/-- Edges cover at least one code point, and all targets are states. -/
structure WellFormed (n : NFA V) : Prop where
  edge_proper : ∀ q, ∀ e ∈ n.edges q, e.Proper
  edge_target : ∀ q, ∀ e ∈ n.edges q, e.target < n.size
  silent_target : ∀ q, ∀ t ∈ n.silent q, t < n.size

theorem WellFormed.silentInside {n : NFA V} (hn : n.WellFormed) : n.SilentInside := hn.silent_target

theorem WellFormed.step_lt {n : NFA V} (hn : n.WellFormed) {x y : Nat} {l : Option Int}
    (h : n.Step x l y) : y < n.size := by
  cases h with
  | silent hmem =>
      exact hn.silent_target x y hmem
  | edge hmem _ =>
      exact hn.edge_target x _ hmem

/-- It is enough to look at the states that are there. -/
theorem wellFormed_iff {n : NFA V} :
    n.WellFormed ↔ ∀ q < n.size,
      (∀ e ∈ n.edges q, e.Proper ∧ e.target < n.size) ∧ ∀ t ∈ n.silent q, t < n.size := by
  constructor
  · intro hn q _
    exact ⟨fun e he => ⟨hn.edge_proper q e he, hn.edge_target q e he⟩, hn.silent_target q⟩
  · intro h
    have hedge : ∀ q, ∀ e ∈ n.edges q, e.Proper ∧ e.target < n.size := by
      intro q e he
      by_cases hq : q < n.size
      · exact (h q hq).1 e he
      · rw [edges_eq_nil (Nat.not_lt.1 hq)] at he
        exact absurd he (by simp)
    refine ⟨fun q e he => (hedge q e he).1, fun q e he => (hedge q e he).2, fun q t ht => ?_⟩
    by_cases hq : q < n.size
    · exact (h q hq).2 t ht
    · rw [silent_eq_nil (Nat.not_lt.1 hq)] at ht
      exact absurd ht (by simp)

instance (n : NFA V) : Decidable n.WellFormed := decidable_of_iff _ wellFormed_iff.symm

/-! ## Silent edges read nothing -/

theorem silentReach_iff_path {n : NFA V} {s t : Nat} :
    n.SilentReach s t ↔ Path n.Step s [] t := by
  constructor
  · intro h
    induction h with
    | refl s =>
        exact Path.nil s
    | step hmem _ ih =>
        exact Path.step (l := none) (.silent hmem) ih
  · intro h
    generalize hw : ([] : List Int) = w at h
    induction h with
    | nil s =>
        exact .refl s
    | step hstep _ ih =>
        cases hstep with
        | silent hmem =>
            exact .step hmem (ih (by simpa using hw))
        | edge _ _ =>
            exact absurd hw (by simp)

theorem SilentReach.mem_of_closed {n : NFA V} {P : Nat → Prop} (hP : ∀ s, P s → ∀ t ∈ n.silent s, P t)
    {s t : Nat} (h : n.SilentReach s t) (hs : P s) : P t := by
  induction h with
  | refl s =>
      exact hs
  | step hmem _ ih =>
      exact ih (hP _ hs _ hmem)

/-! ## The work list -/

/-- Every state that the work list finds was seen before or is reached from a pending one. -/
theorem reach_of_contains_explore {n : NFA V} {seen : Std.TreeSet Nat} {pending : List Nat} {q : Nat}
    (h : (n.explore seen pending).contains q = true) :
    seen.contains q = true ∨ ∃ s ∈ pending, s < n.size ∧ n.SilentReach s q := by
  -- What is pending is reached from an earlier entry, so reaching is handed on entry by entry.
  fun_induction explore n seen pending with
  | case1 seen =>
      exact Or.inl h
  | case2 seen s pending hs ih =>
      rcases ih h with hseen | ⟨t, ht, htlt, hreach⟩
      · rw [Std.TreeSet.contains_insert, Bool.or_eq_true] at hseen
        rcases hseen with heq | hseen
        · obtain rfl : s = q := by simpa using heq
          exact Or.inr ⟨s, by simp, hs.1, .refl s⟩
        · exact Or.inl hseen
      · rcases List.mem_append.1 ht with ht | ht
        · exact Or.inr ⟨s, by simp, hs.1, .step ht hreach⟩
        · exact Or.inr ⟨t, by simp [ht], htlt, hreach⟩
  | case3 seen s pending _ ih =>
      rcases ih h with hseen | ⟨t, ht, htlt, hreach⟩
      · exact Or.inl hseen
      · exact Or.inr ⟨t, by simp [ht], htlt, hreach⟩

/-- The work list keeps what was seen, handles what is pending, and ends with a set that no silent edge
leaves, if no silent edge leaves the seen and pending states. -/
theorem explore_closed {n : NFA V} (hn : n.SilentInside) (seen : Std.TreeSet Nat) (pending : List Nat)
    (hseen : ∀ s, seen.contains s = true → ∀ t ∈ n.silent s, seen.contains t = true ∨ t ∈ pending) :
    (∀ s, seen.contains s = true → (n.explore seen pending).contains s = true) ∧
      (∀ s ∈ pending, s < n.size → (n.explore seen pending).contains s = true) ∧
      ∀ s, (n.explore seen pending).contains s = true →
        ∀ t ∈ n.silent s, (n.explore seen pending).contains t = true := by
  fun_induction explore n seen pending with
  | case1 seen =>
      refine ⟨fun s hs => hs, by simp, fun s hs t ht => ?_⟩
      rcases hseen s hs t ht with h | h
      · exact h
      · exact absurd h (by simp)
  | case2 seen s pending hs ih =>
      -- The entry becomes seen, and what it leads to becomes pending.
      have hinv : ∀ x, (seen.insert s).contains x = true → ∀ t ∈ n.silent x,
          (seen.insert s).contains t = true ∨ t ∈ n.silent s ++ pending := by
        intro x hx t ht
        rw [Std.TreeSet.contains_insert, Bool.or_eq_true] at hx
        rcases hx with heq | hx
        · obtain rfl : s = x := by simpa using heq
          exact Or.inr (List.mem_append_left _ ht)
        · rcases hseen x hx t ht with h | h
          · exact Or.inl (by simp [Std.TreeSet.contains_insert, h])
          · rcases List.mem_cons.1 h with rfl | h
            · exact Or.inl (by simp)
            · exact Or.inr (List.mem_append_right _ h)
      rcases ih hinv with ⟨hkeep, hpending, hclosed⟩
      refine ⟨fun x hx => hkeep x ?_, fun x hx hlt => ?_, hclosed⟩
      · simp [Std.TreeSet.contains_insert, hx]
      · rcases List.mem_cons.1 hx with rfl | hx
        · exact hkeep x (by simp)
        · exact hpending x (List.mem_append_right _ hx) hlt
  | case3 seen s pending hs ih =>
      -- The entry was handled before, or there is no such state.
      have hdone : s < n.size → seen.contains s = true := by
        intro hlt
        cases hc : seen.contains s with
        | false =>
            exact absurd ⟨hlt, hc⟩ hs
        | true =>
            rfl
      have hinv : ∀ x, seen.contains x = true → ∀ t ∈ n.silent x,
          seen.contains t = true ∨ t ∈ pending := by
        intro x hx t ht
        rcases hseen x hx t ht with h | h
        · exact Or.inl h
        · rcases List.mem_cons.1 h with rfl | h
          · exact Or.inl (hdone (hn x t ht))
          · exact Or.inr h
      rcases ih hinv with ⟨hkeep, hpending, hclosed⟩
      refine ⟨hkeep, fun x hx hlt => ?_, hclosed⟩
      rcases List.mem_cons.1 hx with rfl | hx
      · exact hkeep x (hdone hlt)
      · exact hpending x hx hlt

/-- A closure holds the states that are reached over silent edges. -/
theorem mem_closure_iff_of_silentInside {n : NFA V} (hn : n.SilentInside) {qs : List Nat} {q : Nat} :
    q ∈ n.closure qs ↔ ∃ s ∈ qs, s < n.size ∧ n.SilentReach s q := by
  have hmem : q ∈ n.closure qs ↔ (n.explore ∅ qs).contains q = true := by
    rw [closure, Std.TreeSet.mem_toList, Std.TreeSet.mem_iff_contains]
  rw [hmem]
  constructor
  · intro h
    rcases reach_of_contains_explore h with h | h
    · exact absurd h (by simp)
    · exact h
  · rintro ⟨s, hs, hlt, hreach⟩
    rcases explore_closed hn ∅ qs (by simp) with ⟨-, hpending, hclosed⟩
    exact hreach.mem_of_closed (P := fun s => (n.explore ∅ qs).contains s = true) hclosed
      (hpending s hs hlt)

theorem mem_closure_iff {n : NFA V} (hn : n.WellFormed) {qs : List Nat} {q : Nat} :
    q ∈ n.closure qs ↔ ∃ s ∈ qs, s < n.size ∧ n.SilentReach s q :=
  mem_closure_iff_of_silentInside hn.silentInside

end NFA

end MaximalMunch
