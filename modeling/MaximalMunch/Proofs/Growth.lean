import Mathlib.Tactic.ByContra
import MaximalMunch.NFA.Basic
import MaximalMunch.Proofs.Path

/-!
# Growth of an automaton

Automata are built by adding states and edges, and nothing is ever taken away. What a construction has
added is the difference of two automata, and it has paths of its own.

- `NFA.Step`     : the steps of an automaton
- `NFA.Added`    : the steps over the edges that one automaton has behind those of another
- `NFA.Extends`  : edges are only added, behind those that were there
- `NFA.Grows`    : the added edges leave one old state and the new ones, and enter new ones only
-/

namespace MaximalMunch

namespace NFA

variable {V : Type}

/-! ## Views of a grown automaton -/

theorem edges_eq_nil {n : NFA V} {q : Nat} (h : n.size ≤ q) : n.edges q = [] := by
  have hnone : n.states[q]? = none := Array.getElem?_eq_none h
  simp [edges, hnone]

theorem silent_eq_nil {n : NFA V} {q : Nat} (h : n.size ≤ q) : n.silent q = [] := by
  have hnone : n.states[q]? = none := Array.getElem?_eq_none h
  simp [silent, hnone]

theorem value?_eq_none {n : NFA V} {q : Nat} (h : n.size ≤ q) : n.value? q = none := by
  have hnone : n.states[q]? = none := Array.getElem?_eq_none h
  simp [value?, hnone]

@[simp] theorem edges_empty (q : Nat) : (empty : NFA V).edges q = [] := edges_eq_nil (Nat.zero_le q)

@[simp] theorem silent_empty (q : Nat) : (empty : NFA V).silent q = [] := silent_eq_nil (Nat.zero_le q)

@[simp] theorem value?_empty (q : Nat) : (empty : NFA V).value? q = none :=
  value?_eq_none (Nat.zero_le q)

@[simp] theorem edges_addState (n : NFA V) (v : Option V) (q : Nat) :
    (n.addState v).edges q = n.edges q := by
  by_cases hq : q = n.size
  · rw [edges_eq_nil (Nat.le_of_eq hq.symm)]
    simp [edges, addState, hq, size]
  · have hne : q ≠ n.states.size := hq
    simp [edges, addState, Array.getElem?_push, hne]

@[simp] theorem silent_addState (n : NFA V) (v : Option V) (q : Nat) :
    (n.addState v).silent q = n.silent q := by
  by_cases hq : q = n.size
  · rw [silent_eq_nil (Nat.le_of_eq hq.symm)]
    simp [silent, addState, hq, size]
  · have hne : q ≠ n.states.size := hq
    simp [silent, addState, Array.getElem?_push, hne]

theorem value?_addState (n : NFA V) (v : Option V) (q : Nat) :
    (n.addState v).value? q = if q = n.size then v else n.value? q := by
  by_cases hq : q = n.size
  · simp [value?, addState, hq, size]
  · have hne : q ≠ n.states.size := hq
    simp [value?, addState, Array.getElem?_push, hne, hq]

@[simp] theorem edges_addEmpty (n : NFA V) (q : Nat) : n.addEmpty.edges q = n.edges q :=
  edges_addState ..

@[simp] theorem silent_addEmpty (n : NFA V) (q : Nat) : n.addEmpty.silent q = n.silent q :=
  silent_addState ..

@[simp] theorem value?_addEmpty (n : NFA V) (q : Nat) : n.addEmpty.value? q = n.value? q := by
  rw [addEmpty, value?_addState]
  split
  · rename_i hq
    rw [value?_eq_none (Nat.le_of_eq hq.symm)]
  · rfl

theorem edges_addEdges (n : NFA V) (s : Nat) (rs : List Range) (t q : Nat) :
    (n.addEdges s rs t).edges q =
      n.edges q ++ if q = s ∧ s < n.size then rs.map (Edge.ofRange · t) else [] := by
  simp only [edges, addEdges, Array.getElem?_modify]
  by_cases hq : s = q
  · subst hq
    cases hs : n.states[s]? with
    | none =>
        have hle : ¬ s < n.size := Nat.not_lt.2 (Array.getElem?_eq_none_iff.1 hs)
        simp [hle]
    | some x =>
        have hlt : s < n.size := (Array.getElem?_eq_some_iff.1 hs).1
        simp [hlt]
  · have hne : ¬ (q = s ∧ s < n.size) := fun h => hq h.1.symm
    simp [hq, hne]

@[simp] theorem silent_addEdges (n : NFA V) (s : Nat) (rs : List Range) (t q : Nat) :
    (n.addEdges s rs t).silent q = n.silent q := by
  simp only [silent, addEdges, Array.getElem?_modify]
  by_cases hq : s = q
  · subst hq
    cases hs : n.states[s]? <;> simp
  · simp [hq]

@[simp] theorem value?_addEdges (n : NFA V) (s : Nat) (rs : List Range) (t q : Nat) :
    (n.addEdges s rs t).value? q = n.value? q := by
  simp only [value?, addEdges, Array.getElem?_modify]
  by_cases hq : s = q
  · subst hq
    cases hs : n.states[s]? <;> simp
  · simp [hq]

@[simp] theorem edges_addSilent (n : NFA V) (s t q : Nat) :
    (n.addSilent s t).edges q = n.edges q := by
  unfold addSilent
  split
  · rfl
  · simp only [edges, Array.getElem?_modify]
    by_cases hq : s = q
    · subst hq
      cases hs : n.states[s]? with
      | none =>
          simp
      | some x =>
          simp only [if_true, Option.map_some]
          split <;> rfl
    · simp [hq]

@[simp] theorem value?_addSilent (n : NFA V) (s t q : Nat) :
    (n.addSilent s t).value? q = n.value? q := by
  unfold addSilent
  split
  · rfl
  · simp only [value?, Array.getElem?_modify]
    by_cases hq : s = q
    · subst hq
      cases hs : n.states[s]? with
      | none =>
          simp
      | some x =>
          simp only [if_true, Option.map_some]
          split <;> rfl
    · simp [hq]

theorem silent_addSilent (n : NFA V) (s t q : Nat) :
    (n.addSilent s t).silent q =
      n.silent q ++ if q = s ∧ s < n.size ∧ s ≠ t ∧ t ∉ n.silent s then [t] else [] := by
  unfold addSilent
  split
  · rename_i hst
    simp [hst]
  · rename_i hst
    by_cases hq : q = s
    · subst hq
      cases hs : n.states[q]? with
      | none =>
          have hle : ¬ q < n.size := Nat.not_lt.2 (Array.getElem?_eq_none_iff.1 hs)
          simp [silent, Array.getElem?_modify, hs, hle]
      | some x =>
          have hlt : q < n.size := (Array.getElem?_eq_some_iff.1 hs).1
          by_cases hmem : t ∈ x.silent
          · simp [hlt, hst, hmem, silent, Array.getElem?_modify, hs]
          · simp [hlt, hst, hmem, silent, Array.getElem?_modify, hs]
    · rw [if_neg fun h => hq h.1]
      simp [silent, Array.getElem?_modify, Ne.symm hq]

/-! ## Steps -/

/-- The steps over edges and silent edges that are listed by the state they leave. -/
inductive StepOver (edges : Nat → List Edge) (silent : Nat → List Nat) :
    Nat → Option Int → Nat → Prop where
  | silent {s t : Nat} : t ∈ silent s → StepOver edges silent s none t
  | edge {s : Nat} {e : Edge} {p : Int} :
      e ∈ edges s → e.Covers p → StepOver edges silent s (some p) e.target

/-- The steps of an automaton. -/
def Step (n : NFA V) : Nat → Option Int → Nat → Prop := StepOver n.edges n.silent

/-- The steps over the edges of `n'` that come behind those of `n`. -/
def Added (n n' : NFA V) : Nat → Option Int → Nat → Prop :=
  StepOver (fun q => (n'.edges q).drop (n.edges q).length)
    (fun q => (n'.silent q).drop (n.silent q).length)

theorem stepOver_append_iff {es es' : Nat → List Edge} {ss ss' : Nat → List Nat} {x y : Nat}
    {l : Option Int} :
    StepOver (fun q => es q ++ es' q) (fun q => ss q ++ ss' q) x l y ↔
      StepOver es ss x l y ∨ StepOver es' ss' x l y := by
  constructor
  · intro h
    cases h with
    | silent hmem =>
        rcases List.mem_append.1 hmem with hmem | hmem
        · exact Or.inl (.silent hmem)
        · exact Or.inr (.silent hmem)
    | edge hmem hp =>
        rcases List.mem_append.1 hmem with hmem | hmem
        · exact Or.inl (.edge hmem hp)
        · exact Or.inr (.edge hmem hp)
  · rintro (h | h)
    · cases h with
      | silent hmem =>
          exact .silent (List.mem_append_left _ hmem)
      | edge hmem hp =>
          exact .edge (List.mem_append_left _ hmem) hp
    · cases h with
      | silent hmem =>
          exact .silent (List.mem_append_right _ hmem)
      | edge hmem hp =>
          exact .edge (List.mem_append_right _ hmem) hp

theorem Step.lt_size {n : NFA V} {x y : Nat} {l : Option Int} (h : n.Step x l y) : x < n.size := by
  by_contra hx
  cases h with
  | silent hmem =>
      rw [silent_eq_nil (Nat.not_lt.1 hx)] at hmem
      exact absurd hmem (by simp)
  | edge hmem _ =>
      rw [edges_eq_nil (Nat.not_lt.1 hx)] at hmem
      exact absurd hmem (by simp)

/-- The automaton with one state and nothing else has no steps. -/
theorem not_step_initial {x y : Nat} {l : Option Int} : ¬ (empty.addEmpty : NFA V).Step x l y := by
  intro h
  cases h with
  | silent hmem =>
      simp at hmem
  | edge hmem _ =>
      simp at hmem

/-! ## Extension -/

/-- Edges were only added, behind those that were there. -/
structure Extends (n n' : NFA V) : Prop where
  size_le : n.size ≤ n'.size
  edges : ∀ q, n.edges q <+: n'.edges q
  silent : ∀ q, n.silent q <+: n'.silent q

namespace Extends

variable {n n₁ n₂ : NFA V} {x y : Nat} {l : Option Int}

theorem refl (n : NFA V) : Extends n n :=
  ⟨Nat.le_refl _, fun _ => List.prefix_rfl, fun _ => List.prefix_rfl⟩

theorem trans (h : Extends n n₁) (h' : Extends n₁ n₂) : Extends n n₂ :=
  ⟨Nat.le_trans h.size_le h'.size_le, fun q => (h.edges q).trans (h'.edges q),
    fun q => (h.silent q).trans (h'.silent q)⟩

theorem addState (n : NFA V) (v : Option V) : Extends n (n.addState v) := by
  refine ⟨by simp, fun q => ?_, fun q => ?_⟩
  · simp
  · simp

theorem addEdges (n : NFA V) (s : Nat) (rs : List Range) (t : Nat) :
    Extends n (n.addEdges s rs t) := by
  refine ⟨by simp, fun q => ?_, fun q => ?_⟩
  · rw [edges_addEdges]
    exact List.prefix_append _ _
  · simp

theorem addSilent (n : NFA V) (s t : Nat) : Extends n (n.addSilent s t) := by
  refine ⟨by simp, fun q => ?_, fun q => ?_⟩
  · simp
  · rw [silent_addSilent]
    exact List.prefix_append _ _

theorem drop_trans {α : Type} {as bs cs : List α} (h : as <+: bs) (h' : bs <+: cs) :
    cs.drop as.length = bs.drop as.length ++ cs.drop bs.length := by
  rcases h with ⟨xs, rfl⟩
  rcases h' with ⟨ys, rfl⟩
  simp

theorem step_iff (h : Extends n n₁) : n₁.Step x l y ↔ n.Step x l y ∨ Added n n₁ x l y := by
  have hedges : n₁.edges = fun q => n.edges q ++ (n₁.edges q).drop (n.edges q).length := by
    funext q
    exact (List.prefix_iff_eq_append.1 (h.edges q)).symm
  have hsilent : n₁.silent = fun q => n.silent q ++ (n₁.silent q).drop (n.silent q).length := by
    funext q
    exact (List.prefix_iff_eq_append.1 (h.silent q)).symm
  unfold Step Added
  rw [← stepOver_append_iff, ← hedges, ← hsilent]

/-- What is added in two stages is added in one of them. -/
theorem added_iff (h : Extends n n₁) (h' : Extends n₁ n₂) :
    Added n n₂ x l y ↔ Added n n₁ x l y ∨ Added n₁ n₂ x l y := by
  unfold Added
  rw [← stepOver_append_iff]
  have hedges := fun q => drop_trans (h.edges q) (h'.edges q)
  have hsilent := fun q => drop_trans (h.silent q) (h'.silent q)
  simp only [hedges, hsilent]

end Extends

theorem Added.lt_size {n n' : NFA V} {x y : Nat} {l : Option Int} (h : Added n n' x l y) :
    x < n'.size := by
  have hstep : n'.Step x l y := by
    cases h with
    | silent hmem =>
        exact .silent (List.mem_of_mem_drop hmem)
    | edge hmem hp =>
        exact .edge (List.mem_of_mem_drop hmem) hp
  exact hstep.lt_size

theorem not_added_self {n : NFA V} {x y : Nat} {l : Option Int} : ¬ Added n n x l y := by
  intro h
  cases h with
  | silent hmem =>
      exact absurd hmem (by simp)
  | edge hmem _ =>
      exact absurd hmem (by simp)

@[simp] theorem added_addState_iff {n₀ n : NFA V} {v : Option V} {x y : Nat} {l : Option Int} :
    Added n₀ (n.addState v) x l y ↔ Added n₀ n x l y := by
  simp [Added]

@[simp] theorem added_addEmpty_iff {n₀ n : NFA V} {x y : Nat} {l : Option Int} :
    Added n₀ n.addEmpty x l y ↔ Added n₀ n x l y := added_addState_iff

theorem added_addEdges_iff {n₀ n : NFA V} (h : Extends n₀ n) {s t : Nat} {rs : List Range} {x y : Nat}
    {l : Option Int} :
    Added n₀ (n.addEdges s rs t) x l y ↔
      Added n₀ n x l y ∨ (s < n.size ∧ x = s ∧ y = t ∧ ∃ r ∈ rs, ∃ p, l = some p ∧ r.Covers p) := by
  rw [h.added_iff (Extends.addEdges n s rs t)]
  refine or_congr_right ?_
  simp only [Added, edges_addEdges, silent_addEdges, List.drop_length, List.drop_left]
  constructor
  · intro h
    cases h with
    | silent hmem =>
        exact absurd hmem (by simp)
    | edge hmem hp =>
        split at hmem
        · rename_i hx
          rcases List.mem_map.1 hmem with ⟨r, hr, rfl⟩
          exact ⟨hx.2, hx.1, rfl, r, hr, _, rfl, hp⟩
        · exact absurd hmem (by simp)
  · rintro ⟨hs, rfl, rfl, r, hr, p, rfl, hp⟩
    refine .edge (e := Edge.ofRange r y) ?_ hp
    simpa [hs] using List.mem_map_of_mem (f := (Edge.ofRange · y)) hr

/-- A silent edge to a state that the first automaton does not lead to silently is new. -/
theorem added_addSilent_iff {n₀ n : NFA V} (h : Extends n₀ n) {s t : Nat} (ht : t ∉ n₀.silent s)
    {x y : Nat} {l : Option Int} :
    Added n₀ (n.addSilent s t) x l y ↔
      Added n₀ n x l y ∨ (s < n.size ∧ s ≠ t ∧ x = s ∧ l = none ∧ y = t) := by
  have hnew : Added n (n.addSilent s t) x l y ↔
      s < n.size ∧ s ≠ t ∧ t ∉ n.silent s ∧ x = s ∧ l = none ∧ y = t := by
    simp only [Added, silent_addSilent, edges_addSilent, List.drop_length, List.drop_left]
    constructor
    · intro h
      cases h with
      | silent hmem =>
          split at hmem
          · rename_i hx
            exact ⟨hx.2.1, hx.2.2.1, hx.2.2.2, hx.1, rfl, by simpa using hmem⟩
          · exact absurd hmem (by simp)
      | edge hmem _ =>
          exact absurd hmem (by simp)
    · rintro ⟨hs, hst, hmem, rfl, rfl, rfl⟩
      exact .silent (by simp [hs, hst, hmem])
  rw [h.added_iff (Extends.addSilent n s t), hnew]
  -- The edge may stand among those added before, in which case it is not added again.
  constructor
  · rintro (hold | ⟨hs, hst, -, hx, hl, hy⟩)
    · exact Or.inl hold
    · exact Or.inr ⟨hs, hst, hx, hl, hy⟩
  · rintro (hold | ⟨hs, hst, rfl, rfl, rfl⟩)
    · exact Or.inl hold
    · by_cases hmem : y ∈ n.silent x
      · -- The edge was there, but not from the beginning.
        refine Or.inl (.silent ?_)
        rcases h.silent x with ⟨ys, hys⟩
        rw [← hys] at hmem ⊢
        rcases List.mem_append.1 hmem with hmem | hmem
        · exact absurd hmem ht
        · simpa using hmem
      · exact Or.inr ⟨hs, hst, hmem, rfl, rfl, rfl⟩

/-! ## Growth behind a state -/

/-- The state `q` is there, and so is each state that its silent edges lead to. A silent edge to a number
that no state has yet would stand for the silent edge to the state that gets this number. -/
def Anchored (n : NFA V) (q : Nat) : Prop := q < n.size ∧ ∀ t ∈ n.silent q, t < n.size

/-- What was added leaves `source` and new states, and enters new states only. -/
structure Grows (n n' : NFA V) (source : Nat) : Prop extends Extends n n' where
  leaves : ∀ x l y, Added n n' x l y → x = source ∨ n.size ≤ x
  enters : ∀ x l y, Added n n' x l y → n.size ≤ y ∧ y < n'.size

namespace Grows

variable {n n₁ n₂ : NFA V} {s a t : Nat}

theorem refl (n : NFA V) (s : Nat) : Grows n n s where
  toExtends := Extends.refl n
  leaves := fun _ _ _ h => absurd h not_added_self
  enters := fun _ _ _ h => absurd h not_added_self

theorem trans (h : Grows n n₁ s) (h' : Grows n₁ n₂ a) (ha : a = s ∨ n.size ≤ a) : Grows n n₂ s where
  toExtends := h.toExtends.trans h'.toExtends
  leaves := by
    intro x l y hadd
    have hle := h.size_le
    rcases (h.toExtends.added_iff h'.toExtends).1 hadd with hadd | hadd
    · exact h.leaves x l y hadd
    · rcases h'.leaves x l y hadd with rfl | hx
      · exact ha
      · exact Or.inr (Nat.le_trans hle hx)
  enters := by
    intro x l y hadd
    have hle := h.size_le
    have hle' := h'.size_le
    rcases (h.toExtends.added_iff h'.toExtends).1 hadd with hadd | hadd
    · have := h.enters x l y hadd
      omega
    · have := h'.enters x l y hadd
      omega

theorem addState (h : Grows n n₁ s) (v : Option V) : Grows n (n₁.addState v) s where
  toExtends := h.toExtends.trans (Extends.addState n₁ v)
  leaves := fun x l y hadd => h.leaves x l y (added_addState_iff.1 hadd)
  enters := by
    intro x l y hadd
    have := h.enters x l y (added_addState_iff.1 hadd)
    simp only [size_addState]
    omega

theorem addEdges (h : Grows n n₁ s) (ha : a = s ∨ n.size ≤ a) (ht : n.size ≤ t) (htlt : t < n₁.size)
    (rs : List Range) : Grows n (n₁.addEdges a rs t) s where
  toExtends := h.toExtends.trans (Extends.addEdges n₁ a rs t)
  leaves := by
    intro x l y hadd
    rcases (added_addEdges_iff h.toExtends).1 hadd with hadd | ⟨-, rfl, -⟩
    · exact h.leaves x l y hadd
    · exact ha
  enters := by
    intro x l y hadd
    rw [size_addEdges]
    rcases (added_addEdges_iff h.toExtends).1 hadd with hadd | ⟨-, -, rfl, -⟩
    · exact h.enters x l y hadd
    · exact ⟨ht, htlt⟩

/-- Nothing that is added leads back to the state it was added behind. -/
theorem not_added_source (h : Grows n n₁ s) (hs : s < n.size) (x : Nat) (l : Option Int) :
    ¬ Added n n₁ x l s := by
  intro hadd
  have := (h.enters x l s hadd).1
  omega

/-- A new state is not the target of an old silent edge. -/
theorem fresh (hs : n.Anchored s) (ha : a = s ∨ n.size ≤ a) (ht : n.size ≤ t) : t ∉ n.silent a := by
  intro hmem
  rcases ha with rfl | ha
  · have := hs.2 t hmem
    omega
  · rw [silent_eq_nil ha] at hmem
    exact absurd hmem (by simp)

theorem addSilent (h : Grows n n₁ s) (hs : n.Anchored s) (ha : a = s ∨ n.size ≤ a) (ht : n.size ≤ t)
    (htlt : t < n₁.size) : Grows n (n₁.addSilent a t) s where
  toExtends := h.toExtends.trans (Extends.addSilent n₁ a t)
  leaves := by
    intro x l y hadd
    rcases (added_addSilent_iff h.toExtends (fresh hs ha ht)).1 hadd with hadd | ⟨-, -, rfl, -⟩
    · exact h.leaves x l y hadd
    · exact ha
  enters := by
    intro x l y hadd
    rw [size_addSilent]
    rcases (added_addSilent_iff h.toExtends (fresh hs ha ht)).1 hadd with hadd | ⟨-, -, -, -, rfl⟩
    · exact h.enters x l y hadd
    · exact ⟨ht, htlt⟩

/-- An old state other than the source keeps its silent edges as they are. -/
theorem silent_eq (h : Grows n n₁ s) {q : Nat} (hq : q < n.size) (hne : q ≠ s) :
    n₁.silent q = n.silent q := by
  rcases h.silent q with ⟨more, hmore⟩
  cases more with
  | nil =>
      simpa using hmore.symm
  | cons t more =>
      -- A further silent edge would be an added step that leaves `q`.
      have hadd : Added n n₁ q none t := .silent (by simp [← hmore])
      rcases h.leaves q none t hadd with rfl | hge
      · exact absurd rfl hne
      · omega

theorem edges_eq (h : Grows n n₁ s) {q : Nat} (hproper : ∀ e ∈ n₁.edges q, e.Proper)
    (hq : q < n.size) (hne : q ≠ s) : n₁.edges q = n.edges q := by
  rcases h.edges q with ⟨more, hmore⟩
  cases more with
  | nil =>
      simpa using hmore.symm
  | cons e more =>
      have hadd : Added n n₁ q (some e.lo) e.target :=
        .edge (by simp [← hmore]) ⟨Int.le_refl _, hproper e (by simp [← hmore])⟩
      rcases h.leaves q _ _ hadd with rfl | hge
      · exact absurd rfl hne
      · omega

/-- Old and new states lead silently to states that are there. -/
theorem anchored (h : Grows n n₁ s) (hs : n.Anchored s) (ha : a = s ∨ n.size ≤ a)
    (halt : a < n₁.size) : n₁.Anchored a := by
  refine ⟨halt, fun t ht => ?_⟩
  rcases h.toExtends.step_iff.1 (StepOver.silent ht : n₁.Step a none t) with hold | hadd
  · cases hold with
    | silent hmem =>
        rcases ha with rfl | ha
        · exact Nat.lt_of_lt_of_le (hs.2 t hmem) h.size_le
        · rw [silent_eq_nil ha] at hmem
          exact absurd hmem (by simp)
  · exact (h.enters a none t hadd).2

end Grows

end NFA

end MaximalMunch
