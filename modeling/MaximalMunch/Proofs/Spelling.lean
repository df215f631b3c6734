import MaximalMunch.Tree.Basic

/-!
# The words of a tree

One equivalence for each kind of tree, and the words made of several words of one tree.

- `Tree.Power`   : so many words of a tree, one behind the other
- `Tree.Forall`  : a property of all nodes of a tree
- `Tree.Ordered` : no repetition has its bounds in the wrong order
-/

namespace MaximalMunch

namespace Tree

variable {t : Tree} {ts : List Tree} {w : List Int}

theorem spells_characters_iff {rs : List Range} :
    (characters rs).Spells w ↔ ∃ r ∈ rs, ∃ p, r.Covers p ∧ w = [p] := by
  constructor
  · intro h
    cases h with
    | characters hr hp =>
        exact ⟨_, hr, _, hp, rfl⟩
  · rintro ⟨r, hr, p, hp, rfl⟩
    exact Spells.characters hr hp

theorem spells_sequence_nil_iff : (sequence []).Spells w ↔ w = [] := by
  constructor
  · intro h
    cases h with
    | nil =>
        rfl
  · rintro rfl
    exact Spells.nil

theorem spells_sequence_cons_iff :
    (sequence (t :: ts)).Spells w ↔ ∃ u v, w = u ++ v ∧ t.Spells u ∧ (sequence ts).Spells v := by
  constructor
  · intro h
    cases h with
    | cons hu hv =>
        exact ⟨_, _, rfl, hu, hv⟩
  · rintro ⟨u, v, rfl, hu, hv⟩
    exact Spells.cons hu hv

/-- A sequence of one tree has the words of this tree. -/
theorem spells_seqOf_iff : (seqOf ts).Spells w ↔ (sequence ts).Spells w := by
  unfold seqOf
  split
  · rw [spells_sequence_cons_iff]
    simp [spells_sequence_nil_iff]
  · rfl

theorem spells_char_iff {c : Char} : (char c).Spells w ↔ w = [CodePoint.ofChar c] := by
  rw [char, spells_characters_iff]
  simp [Range.ofChar, Range.covers_point_iff]

/-- A sequence of characters has one word. -/
theorem spells_chars_iff {cs : List Char} :
    (seqOf (cs.map char)).Spells w ↔ w = cs.map CodePoint.ofChar := by
  rw [spells_seqOf_iff]
  induction cs generalizing w with
  | nil =>
      exact spells_sequence_nil_iff
  | cons c cs ih =>
      rw [List.map_cons, spells_sequence_cons_iff]
      simp only [spells_char_iff, ih]
      simp

theorem spells_choice_iff : (choice ts).Spells w ↔ ∃ t ∈ ts, t.Spells w := by
  constructor
  · intro h
    cases h with
    | choice ht hw =>
        exact ⟨_, ht, hw⟩
  · rintro ⟨t, ht, hw⟩
    exact Spells.choice ht hw

/-! ## Repeated words -/

/-- The word is made of `k` words of the tree. -/
def Power (t : Tree) (k : Nat) (w : List Int) : Prop :=
  ∃ ws : List (List Int), ws.length = k ∧ (∀ u ∈ ws, t.Spells u) ∧ ws.flatten = w

theorem power_zero_iff : t.Power 0 w ↔ w = [] := by
  constructor
  · rintro ⟨ws, hlen, -, rfl⟩
    simp [List.length_eq_zero_iff.1 hlen]
  · rintro rfl
    exact ⟨[], rfl, by simp, rfl⟩

theorem power_one_iff : t.Power 1 w ↔ t.Spells w := by
  constructor
  · rintro ⟨ws, hlen, hws, rfl⟩
    rcases List.length_eq_one_iff.1 hlen with ⟨u, rfl⟩
    simpa using hws u (by simp)
  · intro h
    exact ⟨[w], rfl, by simpa using h, by simp⟩

theorem power_add_iff {j k : Nat} :
    t.Power (j + k) w ↔ ∃ u v, w = u ++ v ∧ t.Power j u ∧ t.Power k v := by
  constructor
  · rintro ⟨ws, hlen, hws, rfl⟩
    refine ⟨(ws.take j).flatten, (ws.drop j).flatten, ?_, ⟨ws.take j, ?_, ?_, rfl⟩,
      ⟨ws.drop j, ?_, ?_, rfl⟩⟩
    · rw [← List.flatten_append, List.take_append_drop]
    · simp only [List.length_take]
      omega
    · exact fun u hu => hws u (List.mem_of_mem_take hu)
    · simp only [List.length_drop]
      omega
    · exact fun u hu => hws u (List.mem_of_mem_drop hu)
  · rintro ⟨u, v, rfl, ⟨us, hj, hus, rfl⟩, ⟨vs, hk, hvs, rfl⟩⟩
    refine ⟨us ++ vs, by simp [hj, hk], fun x hx => ?_, by simp⟩
    rcases List.mem_append.1 hx with hx | hx
    · exact hus x hx
    · exact hvs x hx

theorem power_succ_iff {k : Nat} :
    t.Power (k + 1) w ↔ ∃ u v, w = u ++ v ∧ t.Power k u ∧ t.Spells v := by
  simp only [power_add_iff, power_one_iff]

theorem spells_repetition_iff {min : Nat} {max : Option Nat} :
    (repetition t min max).Spells w ↔
      ∃ k, min ≤ k ∧ (∀ m, max = some m → k ≤ m) ∧ t.Power k w := by
  constructor
  · intro h
    cases h with
    | repetition hmin hmax hws =>
        exact ⟨_, hmin, hmax, _, rfl, hws, rfl⟩
  · rintro ⟨k, hmin, hmax, ws, rfl, hws, rfl⟩
    exact Spells.repetition hmin hmax hws

/-! ## Properties of all nodes -/

/-- The tree and all trees inside it have the property `P`. -/
inductive Forall (P : Tree → Prop) : Tree → Prop where
  | characters {rs : List Range} : P (.characters rs) → Forall P (.characters rs)
  | sequence {ts : List Tree} :
      P (.sequence ts) → (∀ t ∈ ts, Forall P t) → Forall P (.sequence ts)
  | choice {ts : List Tree} : P (.choice ts) → (∀ t ∈ ts, Forall P t) → Forall P (.choice ts)
  | repetition {t : Tree} {min : Nat} {max : Option Nat} :
      P (.repetition t min max) → Forall P t → Forall P (.repetition t min max)

theorem Forall.imp {P Q : Tree → Prop} (hPQ : ∀ t, P t → Q t) (h : t.Forall P) : t.Forall Q := by
  induction h with
  | characters h =>
      exact .characters (hPQ _ h)
  | sequence h _ ih =>
      exact .sequence (hPQ _ h) ih
  | choice h _ ih =>
      exact .choice (hPQ _ h) ih
  | repetition h _ ih =>
      exact .repetition (hPQ _ h) ih

/-- A repetition has its bounds in order; other nodes have none. -/
def BoundsInOrder : Tree → Prop
  | .repetition _ min (some max) => min ≤ max
  | _ => True

/-- All repetitions have their bounds in order. -/
def Ordered (t : Tree) : Prop := t.Forall BoundsInOrder

end Tree

end MaximalMunch
