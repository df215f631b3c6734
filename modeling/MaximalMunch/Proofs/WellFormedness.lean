import MaximalMunch.Proofs.Lowering
import MaximalMunch.Proofs.SilentClosure

/-!
# Automata stay well-formed

A property that adding states and edges keeps is kept by lowering a tree. With proper ranges an automaton
that grows behind a state stays well-formed.

- `NFA.Kept`             : a property that adding states and edges keeps
- `NFA.Ranges`           : a property of the ranges of all edges
- `NFA.Simple`           : no silent edge is a loop, and none stands twice
- `NFA.WellFormed.grow`  : growth keeps all targets inside
- `Tree.lower_keeps`     : lowering keeps such properties, by induction on the tree
-/

namespace MaximalMunch

namespace NFA

variable {V : Type}

/-- New states, silent edges, and edges over ranges with the property `P` keep the property `Q`. -/
structure Kept (P : Range → Prop) (Q : NFA V → Prop) : Prop where
  addEmpty : ∀ {n : NFA V}, Q n → Q n.addEmpty
  addEdges : ∀ {n : NFA V} {rs : List Range} (s t : Nat), (∀ r ∈ rs, P r) → Q n → Q (n.addEdges s rs t)
  addSilent : ∀ {n : NFA V} (s t : Nat), Q n → Q (n.addSilent s t)

theorem Kept.withEntry {P : Range → Prop} {Q : NFA V → Prop} (hQ : Kept P Q) {n : NFA V} (s : Nat)
    (h : Q n) : Q (n.withEntry s) :=
  hQ.addSilent _ _ (hQ.addEmpty (hQ.addSilent _ _ (hQ.addEmpty h)))

/-- The ranges of all edges have the property `P`. -/
def Ranges (P : Range → Prop) (n : NFA V) : Prop := ∀ q, ∀ e ∈ n.edges q, P e.toRange

namespace Ranges

variable {P : Range → Prop} {n : NFA V}

theorem empty : (NFA.empty : NFA V).Ranges P := by
  intro q e he
  simp at he

theorem addState (h : n.Ranges P) (v : Option V) : (n.addState v).Ranges P := by
  intro q e he
  rw [edges_addState] at he
  exact h q e he

theorem addEmpty (h : n.Ranges P) : n.addEmpty.Ranges P := h.addState none

theorem addSilent (h : n.Ranges P) (s t : Nat) : (n.addSilent s t).Ranges P := by
  intro q e he
  rw [edges_addSilent] at he
  exact h q e he

theorem addEdges (h : n.Ranges P) (s : Nat) {rs : List Range} (hrs : ∀ r ∈ rs, P r) (t : Nat) :
    (n.addEdges s rs t).Ranges P := by
  intro q e he
  rw [edges_addEdges] at he
  rcases List.mem_append.1 he with he | he
  · exact h q e he
  · split at he
    · rcases List.mem_map.1 he with ⟨r, hr, rfl⟩
      exact hrs r hr
    · exact absurd he (by simp)

theorem kept : Kept P (Ranges P : NFA V → Prop) where
  addEmpty := fun h => h.addEmpty
  addEdges := fun s t hrs h => h.addEdges s hrs t
  addSilent := fun s t h => h.addSilent s t

end Ranges

/-! ## Silent edges -/

/-- No state leads silently to itself, or twice to the same state. -/
structure Simple (n : NFA V) : Prop where
  silent_ne : ∀ q, q ∉ n.silent q
  silent_nodup : ∀ q, (n.silent q).Nodup

namespace Simple

variable {n : NFA V}

theorem empty : (NFA.empty : NFA V).Simple := ⟨by simp, by simp⟩

theorem addState (h : n.Simple) (v : Option V) : (n.addState v).Simple where
  silent_ne := fun q => by simpa using h.silent_ne q
  silent_nodup := fun q => by simpa using h.silent_nodup q

theorem addEdges (h : n.Simple) (s : Nat) (rs : List Range) (t : Nat) : (n.addEdges s rs t).Simple where
  silent_ne := fun q => by simpa using h.silent_ne q
  silent_nodup := fun q => by simpa using h.silent_nodup q

theorem addSilent (h : n.Simple) (s t : Nat) : (n.addSilent s t).Simple where
  silent_ne := by
    intro q hq
    rw [silent_addSilent] at hq
    rcases List.mem_append.1 hq with hq | hq
    · exact h.silent_ne q hq
    · split at hq
      · rename_i hnew
        obtain rfl : q = t := by simpa using hq
        exact hnew.2.2.1 hnew.1.symm
      · exact absurd hq (by simp)
  silent_nodup := by
    intro q
    rw [silent_addSilent]
    split
    · rename_i hnew
      obtain rfl : q = s := hnew.1
      refine List.nodup_append.2 ⟨h.silent_nodup q, List.pairwise_singleton _ t, ?_⟩
      rintro a ha b hb rfl
      obtain rfl : a = t := by simpa using hb
      exact hnew.2.2.2 ha
    · simpa using h.silent_nodup q

theorem kept (P : Range → Prop) : Kept P (Simple : NFA V → Prop) where
  addEmpty := fun h => h.addState none
  addEdges := fun s t _ h => h.addEdges s _ t
  addSilent := fun s t h => h.addSilent s t

end Simple

/-! ## Growth -/

namespace WellFormed

variable {n n' : NFA V}

theorem empty : (NFA.empty : NFA V).WellFormed where
  edge_proper := Ranges.empty
  edge_target := by simp
  silent_target := by simp

theorem addState (h : n.WellFormed) (v : Option V) : (n.addState v).WellFormed where
  edge_proper := Ranges.addState h.edge_proper v
  edge_target := by
    intro q e he
    rw [edges_addState] at he
    exact Nat.lt_of_lt_of_le (h.edge_target q e he) (by simp)
  silent_target := by
    intro q t ht
    rw [silent_addState] at ht
    exact Nat.lt_of_lt_of_le (h.silent_target q t ht) (by simp)

theorem addEdges (h : n.WellFormed) (s : Nat) {rs : List Range} (hrs : ∀ r ∈ rs, r.Proper) {t : Nat}
    (ht : t < n.size) : (n.addEdges s rs t).WellFormed where
  edge_proper := Ranges.addEdges h.edge_proper s hrs t
  edge_target := by
    intro q e he
    rw [size_addEdges]
    rw [edges_addEdges] at he
    rcases List.mem_append.1 he with he | he
    · exact h.edge_target q e he
    · split at he
      · rcases List.mem_map.1 he with ⟨r, -, rfl⟩
        exact ht
      · exact absurd he (by simp)
  silent_target := by
    intro q u hu
    rw [silent_addEdges] at hu
    rw [size_addEdges]
    exact h.silent_target q u hu

/-- Growth behind a state leads to states that are there. -/
theorem grow (h : n.WellFormed) {s : Nat} (hg : Grows n n' s) (hproper : n'.Ranges Range.Proper) :
    n'.WellFormed := by
  -- Old steps stay inside, and new ones enter new states.
  have htarget : ∀ x l y, n'.Step x l y → y < n'.size := by
    intro x l y hstep
    rcases hg.toExtends.step_iff.1 hstep with hold | hnew
    · exact Nat.lt_of_lt_of_le (h.step_lt hold) hg.size_le
    · exact (hg.enters x l y hnew).2
  exact
    { edge_proper := hproper
      edge_target := fun q e he =>
        htarget q (some e.lo) e.target (.edge he ⟨Int.le_refl _, hproper q e he⟩)
      silent_target := fun q t ht => htarget q none t (.silent ht) }

theorem anchored (h : n.WellFormed) {q : Nat} (hq : q < n.size) : n.Anchored q :=
  ⟨hq, h.silent_target q⟩

end WellFormed

end NFA

namespace Tree

open MaximalMunch.NFA

variable {V : Type} {P : Range → Prop}

/-- The ranges of a node have the property `P`. -/
def RangesOf (P : Range → Prop) : Tree → Prop
  | .characters rs => ∀ r ∈ rs, P r
  | _ => True

/-- A property that the lowering of each child keeps is kept by a sequence. -/
theorem lowerSequence_keeps {Q : NFA V → Prop} {ts : List Tree}
    (h : ∀ t ∈ ts, ∀ n s, Q n → Q (t.lower n s).1) {n : NFA V} (hn : Q n) (s : Nat) :
    Q (lowerSequence ts n s).1 := by
  induction ts generalizing n s with
  | nil =>
      exact hn
  | cons t ts ih =>
      exact ih (fun u hu => h u (by simp [hu])) (h t (by simp) n s hn) _

theorem lowerChoice_keeps {Q : NFA V → Prop} (hQ : Kept P Q) {ts : List Tree}
    (h : ∀ t ∈ ts, ∀ n s, Q n → Q (t.lower n s).1) {n : NFA V} (hn : Q n) (s next : Nat) :
    Q (lowerChoice ts n s next) := by
  induction ts generalizing n s with
  | nil =>
      exact hn
  | cons t ts ih =>
      exact ih (fun u hu => h u (by simp [hu])) (hQ.addSilent _ _ (h t (by simp) n s hn)) s

theorem repeat_keeps {Q : NFA V → Prop} {step : NFA V × Nat → NFA V × Nat}
    (h : ∀ r, Q r.1 → Q (step r).1) (k : Nat) {r : NFA V × Nat} (hr : Q r.1) :
    Q (Nat.repeat step k r).1 := by
  induction k with
  | zero =>
      exact hr
  | succ k ih =>
      exact h _ ih

/-- Lowering keeps whatever is kept by new states, silent edges, and edges over the ranges of the tree. -/
theorem lower_keeps {Q : NFA V → Prop} (hQ : Kept P Q) {t : Tree} (ht : t.Forall (RangesOf P))
    (n : NFA V) (s : Nat) (hn : Q n) : Q (t.lower n s).1 := by
  induction ht generalizing n s with
  | characters hrs =>
      rw [lower]
      exact hQ.addEdges s n.size hrs (hQ.addEmpty hn)
  | sequence _ _ ih =>
      rw [lower]
      exact lowerSequence_keeps ih hn s
  | choice _ _ ih =>
      rw [lower]
      exact lowerChoice_keeps hQ ih (hQ.addEmpty hn) s n.size
  | @repetition t min max _ _ ih =>
      have hreq := repeat_keeps (r := (n, s)) (fun r hr => ih r.1 r.2 hr) min hn
      cases max with
      | some max =>
          rw [lower_bounded]
          exact repeat_keeps (fun r hr => hQ.addSilent _ _ (ih r.1 r.2 hr)) _
            (hQ.addSilent _ _ (hQ.addEmpty hreq))
      | none =>
          rw [lower_unbounded]
          exact hQ.addSilent _ _ (hQ.addSilent _ _ (ih _ _ (hQ.withEntry _ hreq)))

/-- The edges that lowering adds lie over the ranges of the tree. -/
theorem ranges_lower {t : Tree} (ht : t.Forall (RangesOf P)) {n : NFA V} (hn : n.Ranges P)
    (s : Nat) : (t.lower n s).1.Ranges P :=
  lower_keeps Ranges.kept ht n s hn

end Tree

end MaximalMunch
