import Mathlib.Data.List.Basic
import MaximalMunch.Proofs.Growth
import MaximalMunch.Proofs.Spelling
import MaximalMunch.Tree.Lowering

/-!
# The words of a lowered tree

Lowering a tree behind a state adds paths that spell the words of the tree, and no others.

- `NFA.Spans`           : what was added leads from one state to another over the words of a language
- `NFA.Joins`           : the same where the other state is new and nothing leaves it
- `Tree.lower_spans`    : lowering, by induction on the tree
- `Tree.lower_language` : the words on the added paths are those of the tree

All children of a choice, and all optional copies of a repetition, share their end. A loop begins at a
state of its own, so that no step that leaves the state before it is taken twice.
-/

namespace MaximalMunch

namespace NFA

variable {V : Type}

/-- What was added to `n` leads from `source` to `last` over the words of `L`. -/
structure Spans (n n' : NFA V) (source last : Nat) (L : List Int → Prop) : Prop
    extends Grows n n' source where
  value? : ∀ q, n'.value? q = n.value? q
  last_old_or_new : last = source ∨ n.size ≤ last
  last_lt : last < n'.size
  path_iff : ∀ w, Path (Added n n') source w last ↔ L w

/-- What was added leads to the new state `next`, which nothing leaves. -/
structure Joins (n n' : NFA V) (source next : Nat) (L : List Int → Prop) : Prop
    extends Spans n n' source next L where
  new : n.size ≤ next
  sink : ∀ l y, ¬ Added n n' next l y

namespace Spans

variable {n n₁ n₂ : NFA V} {s a e : Nat} {L L' : List Int → Prop}

theorem congr (h : Spans n n₁ s e L) (hL : ∀ w, L w ↔ L' w) : Spans n n₁ s e L' :=
  { h with path_iff := fun w => (h.path_iff w).trans (hL w) }

theorem nil (hs : s < n.size) : Spans n n s s (fun w => w = []) where
  toGrows := Grows.refl n s
  value? := fun _ => rfl
  last_old_or_new := Or.inl rfl
  last_lt := hs
  path_iff := fun _ => Path.refl_iff_of_source fun _ _ => not_added_self

/-- A part behind `s`, or behind a new state, ends at one of these. -/
theorem last_source_or_new (h : Spans n₁ n₂ a e L) (hle : n.size ≤ n₁.size)
    (ha : a = s ∨ n.size ≤ a) : e = s ∨ n.size ≤ e := by
  rcases h.last_old_or_new with rfl | he
  · exact ha
  · exact Or.inr (Nat.le_trans hle he)

/-- The words of two parts, one attached behind the other. -/
theorem path_append_iff (h : Grows n n₁ s) (h' : Spans n₁ n₂ a e L') (hs : s < n.size)
    (ha : a < n₁.size) (w : List Int) :
    Path (Added n n₂) s w e ↔ ∃ u v, w = u ++ v ∧ Path (Added n n₁) s u a ∧ L' v := by
  have hle := h.size_le
  have hold : ∀ x l y, Added n n₁ x l y → x < n₁.size ∧ y < n₁.size :=
    fun x l y hadd => ⟨hadd.lt_size, (h.enters x l y hadd).2⟩
  have hnew : ∀ x l y, Added n₁ n₂ x l y → (x = a ∨ n₁.size ≤ x) ∧ n₁.size ≤ y :=
    fun x l y hadd => ⟨h'.leaves x l y hadd, (h'.enters x l y hadd).1⟩
  have hboth : ∀ x l y, Added n n₂ x l y ↔ Added n n₁ x l y ∨ Added n₁ n₂ x l y :=
    fun x l y => h.toExtends.added_iff h'.toExtends
  rw [Path.attach_iff hold hnew hboth ha (by omega) h'.last_old_or_new]
  simp only [h'.path_iff]

/-- Paths to a state that was there before a part was added do not use this part. -/
theorem path_old_iff (h : Grows n n₁ s) (h' : Grows n₁ n₂ a) (he : e < n₁.size) (w : List Int) :
    Path (Added n n₂) s w e ↔ Path (Added n n₁) s w e :=
  Path.attach_old_iff (fun x l y hadd => ⟨hadd.lt_size, (h.enters x l y hadd).2⟩)
    (fun x l y hadd => ⟨h'.leaves x l y hadd, (h'.enters x l y hadd).1⟩)
    (fun _ _ _ => h.toExtends.added_iff h'.toExtends) he

theorem append (h : Spans n n₁ s a L) (h' : Spans n₁ n₂ a e L') (hs : s < n.size) :
    Spans n n₂ s e (fun w => ∃ u v, w = u ++ v ∧ L u ∧ L' v) where
  toGrows := h.toGrows.trans h'.toGrows h.last_old_or_new
  value? := fun q => (h'.value? q).trans (h.value? q)
  last_old_or_new := h'.last_source_or_new h.size_le h.last_old_or_new
  last_lt := h'.last_lt
  path_iff := by
    intro w
    rw [path_append_iff h.toGrows h' hs h.last_lt]
    simp only [h.path_iff]

/-- A new state behind the edges over some ranges. -/
theorem characters (hs : s < n.size) (rs : List Range) :
    Spans n (n.addEmpty.addEdges s rs n.size) s n.size
      (fun w => ∃ r ∈ rs, ∃ p, r.Covers p ∧ w = [p]) := by
  have hgrows : Grows n (n.addEmpty.addEdges s rs n.size) s :=
    ((Grows.refl n s).addState none).addEdges (Or.inl rfl) (Nat.le_refl _) (by simp) rs
  have hadded : ∀ x l y, Added n (n.addEmpty.addEdges s rs n.size) x l y ↔
      x = s ∧ y = n.size ∧ ∃ r ∈ rs, ∃ p, l = some p ∧ r.Covers p := by
    intro x l y
    have hext : Extends n n.addEmpty := Extends.addState n none
    have hlt : s < n.size + 1 := by omega
    rw [added_addEdges_iff hext, added_addEmpty_iff, size_addEmpty]
    simp [not_added_self, hlt]
  refine
    { toGrows := hgrows
      value? := fun q => by simp
      last_old_or_new := Or.inr (Nat.le_refl _)
      last_lt := by simp
      path_iff := fun w => ?_ }
  constructor
  · intro h
    cases h with
    | nil =>
        omega
    | step hstep hrest =>
        rcases (hadded _ _ _).1 hstep with ⟨-, rfl, r, hr, p, rfl, hp⟩
        have hend : ∀ l y, ¬ Added n (n.addEmpty.addEdges s rs n.size) n.size l y := by
          intro l y hadd
          have := ((hadded _ _ _).1 hadd).1
          omega
        rcases Path.eq_of_sink hend hrest with ⟨-, rfl⟩
        exact ⟨r, hr, p, hp, rfl⟩
  · rintro ⟨r, hr, p, hp, rfl⟩
    exact Path.single ((hadded s (some p) n.size).2 ⟨rfl, rfl, r, hr, p, rfl, hp⟩)

end Spans

/-- A state that accepts a value, behind the edges over some ranges. -/
theorem path_addEdges_addValue_iff {n : NFA V} {s : Nat} (hs : s < n.size) (rs : List Range) (v : V)
    (w : List Int) :
    Path (Added n ((n.addValue v).addEdges s rs n.size)) s w n.size ↔
      ∃ r ∈ rs, ∃ p, r.Covers p ∧ w = [p] := by
  have hsame : Added n ((n.addValue v).addEdges s rs n.size) =
      Added n (n.addEmpty.addEdges s rs n.size) := by
    simp [Added, edges_addEdges, addValue, addEmpty]
  rw [hsame]
  exact (Spans.characters hs rs).path_iff w

namespace Joins

variable {n n₁ n₂ : NFA V} {s a e next : Nat} {L L' : List Int → Prop}

theorem congr (h : Joins n n₁ s next L) (hL : ∀ w, L w ↔ L' w) : Joins n n₁ s next L' :=
  { h with toSpans := h.toSpans.congr hL }

/-- A common end that nothing leads to yet. -/
theorem empty (hs : s < n.size) : Joins n n.addEmpty s n.size (fun _ => False) where
  toGrows := (Grows.refl n s).addState none
  value? := fun q => value?_addEmpty n q
  last_old_or_new := Or.inr (Nat.le_refl _)
  last_lt := by simp
  path_iff := by
    intro w
    refine ⟨fun h => ?_, False.elim⟩
    have hnone : ∀ l x, ¬ Added n n.addEmpty s l x :=
      fun l x hadd => not_added_self (added_addEmpty_iff.1 hadd)
    have := (Path.eq_of_sink hnone h).1
    omega
  new := Nat.le_refl _
  sink := fun l y hadd => not_added_self (added_addEmpty_iff.1 hadd)

section Branch

variable (hs : n.Anchored s) (h : Joins n n₁ s next L) (h' : Spans n₁ n₂ a e L')
  (ha : a = s ∨ n.size ≤ a) (halt : a < n₁.size) (hne : a ≠ next)

include h h' hne in
theorem end_ne : e ≠ next := by
  have hlt := h.last_lt
  rcases h'.last_old_or_new with rfl | he
  · exact hne
  · omega

include h h' hne in
/-- A part attached elsewhere does not leave the common end. -/
theorem sink_part (l : Option Int) (y : Nat) : ¬ Added n n₂ next l y := by
  intro hadd
  have hlt := h.last_lt
  rcases (h.toExtends.added_iff h'.toExtends).1 hadd with hadd | hadd
  · exact h.sink l y hadd
  · rcases h'.leaves next l y hadd with hx | hx
    · exact hne hx.symm
    · omega

include hs h h' ha hne

theorem added_branch_iff (x : Nat) (l : Option Int) (y : Nat) :
    Added n (n₂.addSilent e next) x l y ↔
      Added n n₂ x l y ∨ (x = e ∧ l = none ∧ y = next) := by
  have hend : e = s ∨ n.size ≤ e := h'.last_source_or_new h.size_le ha
  rw [added_addSilent_iff (h.toExtends.trans h'.toExtends) (Grows.fresh hs hend h.new)]
  simp [h'.last_lt, end_ne h h' hne]

include halt

/-- A part that is attached and led to the common end leaves the paths to its own end as they are. -/
theorem path_branch_iff (w : List Int) :
    Path (Added n (n₂.addSilent e next)) s w e ↔
      ∃ u v, w = u ++ v ∧ Path (Added n n₁) s u a ∧ L' v := by
  rw [Path.join_other_iff (added_branch_iff hs h h' ha hne) (sink_part h h' hne)
    (end_ne h h' hne) (end_ne h h' hne)]
  exact Spans.path_append_iff h.toGrows h' hs.1 halt w

/-- Attach a part and lead its end to the common end. -/
theorem branch : Joins n (n₂.addSilent e next) s next
    (fun w => L w ∨ ∃ u v, w = u ++ v ∧ Path (Added n n₁) s u a ∧ L' v) := by
  have hadded := added_branch_iff hs h h' ha hne
  have hsink := sink_part h h' hne
  have hend := end_ne h h' hne
  have hgrows : Grows n n₂ s := h.toGrows.trans h'.toGrows ha
  have hs_ne : s ≠ next := by
    have := hs.1
    have := h.new
    omega
  have hlast : e = s ∨ n.size ≤ e := h'.last_source_or_new h.size_le ha
  have hnext : next < n₂.size := Nat.lt_of_lt_of_le h.last_lt h'.size_le
  refine
    { toGrows := hgrows.addSilent hs hlast h.new hnext
      value? := fun q => ?_
      last_old_or_new := Or.inr h.new
      last_lt := by simpa using hnext
      path_iff := fun w => ?_
      new := h.new
      sink := Path.join_sink hadded hsink hend }
  · rw [value?_addSilent, h'.value? q, h.value? q]
  · rw [Path.join_iff hadded hsink hend hs_ne, Spans.path_append_iff h.toGrows h' hs.1 halt w,
      Spans.path_old_iff h.toGrows h'.toGrows h.last_lt, h.path_iff]

end Branch

/-- Attach a part at the beginning. -/
theorem branch_source (hs : n.Anchored s) (h : Joins n n₁ s next L) (h' : Spans n₁ n₂ s e L') :
    Joins n (n₂.addSilent e next) s next (fun w => L w ∨ L' w) := by
  have hlt : s < n₁.size := Nat.lt_of_lt_of_le hs.1 h.size_le
  have hne : s ≠ next := by
    have := hs.1
    have := h.new
    omega
  refine (branch hs h h' (Or.inl rfl) hlt hne).congr fun w => or_congr_right ?_
  -- Nothing leads back to the beginning, so the children before this one are not passed first.
  simp [Path.refl_iff_of_source (h.not_added_source hs.1)]

/-- A common end that the beginning leads to. -/
theorem direct (hs : n.Anchored s) :
    Joins n (n.addEmpty.addSilent s n.size) s n.size (fun w => w = []) := by
  have hlt : s < n.addEmpty.size := by
    have := hs.1
    simp only [size_addEmpty]
    omega
  refine (branch_source hs (empty hs.1) (Spans.nil hlt)).congr fun w => ?_
  simp

end Joins

/-! ## A loop behind a state -/

section Loop

variable {n n₃ : NFA V} {s e : Nat} {L : List Int → Prop}

/-- The automaton `n` with a common end and the entry of a loop, both behind `s`. -/
def withEntry (n : NFA V) (s : Nat) : NFA V :=
  let n₁ := n.addEmpty.addSilent s n.size
  n₁.addEmpty.addSilent s n₁.size

@[simp] theorem size_withEntry (n : NFA V) (s : Nat) : (n.withEntry s).size = n.size + 2 := by
  simp [withEntry]

theorem extends_withEntry (n : NFA V) (s : Nat) : Extends n (n.withEntry s) :=
  (((Extends.addState n none).trans (Extends.addSilent _ s n.size)).trans
    (Extends.addState _ none)).trans (Extends.addSilent _ _ _)

theorem added_withEntry_iff (hs : n.Anchored s) {x y : Nat} {l : Option Int} :
    Added n (n.withEntry s) x l y ↔ x = s ∧ l = none ∧ (y = n.size ∨ y = n.size + 1) := by
  have hfresh : ∀ t, n.size ≤ t → t ∉ n.silent s := fun t ht => Grows.fresh hs (Or.inl rfl) ht
  have h₁ : Extends n n.addEmpty := Extends.addState n none
  have h₂ : Extends n (n.addEmpty.addSilent s n.size) := h₁.trans (Extends.addSilent _ _ _)
  have h₃ : Extends n (n.addEmpty.addSilent s n.size).addEmpty := h₂.trans (Extends.addState _ none)
  have hlt := hs.1
  unfold withEntry
  rw [added_addSilent_iff h₃ (hfresh _ (by simp)), added_addEmpty_iff,
    added_addSilent_iff h₁ (hfresh _ (Nat.le_refl _)), added_addEmpty_iff]
  simp only [not_added_self, size_addEmpty, size_addSilent, false_or]
  constructor
  · rintro (⟨-, -, hx, hl, hy⟩ | ⟨-, -, hx, hl, hy⟩)
    · exact ⟨hx, hl, Or.inl hy⟩
    · exact ⟨hx, hl, Or.inr hy⟩
  · rintro ⟨hx, hl, hy | hy⟩
    · exact Or.inl ⟨by omega, by omega, hx, hl, hy⟩
    · exact Or.inr ⟨by omega, by omega, hx, hl, hy⟩

section Rounds

variable (hs : n.Anchored s) (h : Spans (n.withEntry s) n₃ (n.size + 1) e L)

include hs h

theorem added_loop_iff (x : Nat) (l : Option Int) (y : Nat) :
    Added n ((n₃.addSilent e (n.size + 1)).addSilent e n.size) x l y ↔
      (x = s ∧ l = none ∧ (y = n.size ∨ y = n.size + 1)) ∨ Added (n.withEntry s) n₃ x l y ∨
        (x = e ∧ l = none ∧ ((e ≠ n.size + 1 ∧ y = n.size + 1) ∨ y = n.size)) := by
  have hsize := size_withEntry n s
  have he : n.size ≤ e ∧ e ≠ n.size := by
    rcases h.last_old_or_new with he | he
    · omega
    · omega
  have hlast := h.last_lt
  have hentry : Extends n (n.withEntry s) := extends_withEntry n s
  have h₃ : Extends n n₃ := hentry.trans h.toExtends
  have h₄ : Extends n (n₃.addSilent e (n.size + 1)) := h₃.trans (Extends.addSilent _ _ _)
  have hfresh : ∀ t, n.size ≤ t → t ∉ n.silent e := fun t ht => Grows.fresh hs (Or.inr he.1) ht
  rw [added_addSilent_iff h₄ (hfresh _ (Nat.le_refl _)),
    added_addSilent_iff h₃ (hfresh _ (Nat.le_succ _)), hentry.added_iff h.toExtends,
    added_withEntry_iff hs, size_addSilent]
  constructor
  · rintro (((hx | hx) | ⟨-, hne, hx, hl, hy⟩) | ⟨-, -, hx, hl, hy⟩)
    · exact Or.inl hx
    · exact Or.inr (Or.inl hx)
    · exact Or.inr (Or.inr ⟨hx, hl, Or.inl ⟨hne, hy⟩⟩)
    · exact Or.inr (Or.inr ⟨hx, hl, Or.inr hy⟩)
  · rintro (hx | hx | ⟨hx, hl, ⟨hne, hy⟩ | hy⟩)
    · exact Or.inl (Or.inl (Or.inl hx))
    · exact Or.inl (Or.inl (Or.inr hx))
    · exact Or.inl (Or.inr ⟨hlast, hne, hx, hl, hy⟩)
    · exact Or.inr ⟨hlast, he.2, hx, hl, hy⟩

/-- The words of a loop between an entry behind `s` and the end of a part. -/
theorem path_loop_iff (w : List Int) :
    Path (Added n ((n₃.addSilent e (n.size + 1)).addSilent e n.size)) s w n.size ↔
      ∃ ws : List (List Int), (∀ u ∈ ws, L u) ∧ ws.flatten = w := by
  have hadded := added_loop_iff hs h
  have hsize := size_withEntry n s
  have hlt := hs.1
  have he : e = n.size + 1 ∨ n.size + 2 ≤ e := by
    rcases h.last_old_or_new with he | he
    · exact Or.inl he
    · exact Or.inr (by omega)
  have hpart : ∀ x l y, Added (n.withEntry s) n₃ x l y →
      (x = n.size + 1 ∨ n.size + 2 ≤ x) ∧ n.size + 2 ≤ y := by
    intro x l y hadd
    have hx := h.leaves x l y hadd
    have hy := (h.enters x l y hadd).1
    rw [hsize] at hx hy
    exact ⟨hx, hy⟩
  have hloop : ∀ x l y, x = n.size + 1 ∨ n.size + 2 ≤ x →
      (Added n ((n₃.addSilent e (n.size + 1)).addSilent e n.size) x l y ↔
        Added (n.withEntry s) n₃ x l y ∨
          (x = e ∧ l = none ∧ ((e ≠ n.size + 1 ∧ y = n.size + 1) ∨ y = n.size))) := by
    intro x l y hx
    -- No step of the loop leaves `s`: its entry is a state of its own.
    rw [hadded x l y]
    refine or_iff_right fun hxs => ?_
    have := hxs.1
    omega
  have hsink : ∀ l y, ¬ Added n ((n₃.addSilent e (n.size + 1)).addSilent e n.size) n.size l y := by
    intro l y hadd
    rcases (hadded n.size l y).1 hadd with ⟨hx, -⟩ | hx | ⟨hx, -⟩
    · omega
    · have := (hpart _ _ _ hx).1
      omega
    · omega
  have hrounds := Path.loop_iff hpart hloop hsink (by omega) (by omega) he (w := w)
  constructor
  · intro hpath
    cases hpath with
    | nil =>
        omega
    | step hstep hrest =>
        -- The first step leads to the common end or into the loop.
        rcases (hadded _ _ _).1 hstep with ⟨-, rfl, rfl | rfl⟩ | hx | ⟨hx, -⟩
        · rcases Path.eq_of_sink hsink hrest with ⟨-, rfl⟩
          exact ⟨[], by simp, rfl⟩
        · rcases (Path.loop_iff hpart hloop hsink (by omega) (by omega) he).1 hrest with
            ⟨ws, -, hws, hw⟩
          exact ⟨ws, fun u hu => (h.path_iff u).1 (hws u hu), hw⟩
        · have := (hpart _ _ _ hx).1
          omega
        · omega
  · rintro ⟨ws, hws, hw⟩
    by_cases hnil : ws = []
    · subst hnil
      subst hw
      exact Path.single ((hadded s none n.size).2 (Or.inl ⟨rfl, rfl, Or.inl rfl⟩))
    · have hinto := (hadded s none (n.size + 1)).2 (Or.inl ⟨rfl, rfl, Or.inr rfl⟩)
      exact Path.step hinto (hrounds.2 ⟨ws, hnil, fun u hu => (h.path_iff u).2 (hws u hu), hw⟩)

/-- A loop that may be passed any number of times. -/
theorem spans_loop :
    Spans n ((n₃.addSilent e (n.size + 1)).addSilent e n.size) s n.size
      (fun w => ∃ ws : List (List Int), (∀ u ∈ ws, L u) ∧ ws.flatten = w) := by
  have hsize := size_withEntry n s
  have hle := h.size_le
  have he : n.size ≤ e := by
    rcases h.last_old_or_new with he | he
    · omega
    · omega
  have hfirst : Grows n (n.withEntry s) s := by
    have h₁ : Grows n (n.addEmpty.addSilent s n.size) s :=
      ((Grows.refl n s).addState none).addSilent hs (Or.inl rfl) (Nat.le_refl _) (by simp)
    exact (h₁.addState none).addSilent hs (Or.inl rfl) (by simp) (by simp)
  have hpart : Grows n n₃ s := hfirst.trans h.toGrows (Or.inr (Nat.le_succ _))
  have hback : Grows n (n₃.addSilent e (n.size + 1)) s :=
    hpart.addSilent hs (Or.inr he) (Nat.le_succ _) (by omega)
  refine
    { toGrows := hback.addSilent hs (Or.inr he) (Nat.le_refl _) (by rw [size_addSilent]; omega)
      value? := fun q => ?_
      last_old_or_new := Or.inr (Nat.le_refl _)
      last_lt := by simp only [size_addSilent]; omega
      path_iff := path_loop_iff hs h }
  rw [value?_addSilent, value?_addSilent, h.value? q]
  simp [withEntry]

end Rounds

end Loop

end NFA

namespace Tree

open MaximalMunch.NFA

variable {V : Type}

/-- Lowering the tree adds its words, behind any state of any automaton. -/
def LowersTo (V : Type) (t : Tree) : Prop :=
  ∀ (n : NFA V) (s : Nat), n.Anchored s → Spans n (t.lower n s).1 s (t.lower n s).2 t.Spells

theorem spans_lowerSequence {ts : List Tree} (h : ∀ t ∈ ts, t.LowersTo V) (n : NFA V) (s : Nat)
    (hs : n.Anchored s) :
    Spans n (lowerSequence ts n s).1 s (lowerSequence ts n s).2 (sequence ts).Spells := by
  induction ts generalizing n s with
  | nil =>
      exact (Spans.nil hs.1).congr fun w => spells_sequence_nil_iff.symm
  | cons t ts ih =>
      have hfirst := h t (by simp) n s hs
      have hnext := hfirst.toGrows.anchored hs hfirst.last_old_or_new hfirst.last_lt
      have hrest := ih (fun u hu => h u (by simp [hu])) (t.lower n s).1 (t.lower n s).2 hnext
      exact (hfirst.append hrest hs.1).congr fun w => spells_sequence_cons_iff.symm

theorem joins_lowerChoice {ts : List Tree} (h : ∀ t ∈ ts, t.LowersTo V) {n₀ n : NFA V} {s next : Nat}
    {L : List Int → Prop} (hs : n₀.Anchored s) (hn : Joins n₀ n s next L) :
    Joins n₀ (lowerChoice ts n s next) s next (fun w => L w ∨ (choice ts).Spells w) := by
  -- The children share `s` and `next`; the language so far grows by that of each child.
  induction ts generalizing n L with
  | nil =>
      refine hn.congr fun w => ?_
      simp [spells_choice_iff]
  | cons t ts ih =>
      have hlt : s < n.size := Nat.lt_of_lt_of_le hs.1 hn.size_le
      have hchild := h t (by simp) n s (hn.toGrows.anchored hs (Or.inl rfl) hlt)
      have hrest := ih (fun u hu => h u (by simp [hu])) (hn.branch_source hs hchild)
      refine hrest.congr fun w => ?_
      simp only [spells_choice_iff, List.mem_cons, exists_eq_or_imp]
      exact or_assoc

/-! ## Copies of a tree -/

section Copies

variable {t : Tree} (ht : t.LowersTo V) {n : NFA V} {s : Nat} (hs : n.Anchored s)

include ht hs

/-- The required copies of a repetition. -/
theorem spans_required (k : Nat) :
    Spans n (Nat.repeat (fun r : NFA V × Nat => t.lower r.1 r.2) k (n, s)).1 s
      (Nat.repeat (fun r : NFA V × Nat => t.lower r.1 r.2) k (n, s)).2 (t.Power k) := by
  induction k with
  | zero =>
      exact (Spans.nil hs.1).congr fun w => power_zero_iff.symm
  | succ k ih =>
      have hnext := ih.toGrows.anchored hs ih.last_old_or_new ih.last_lt
      exact (ih.append (ht _ _ hnext) hs.1).congr fun w => power_succ_iff.symm

/-- One more copy of a tree, which may be the last one before the state `next`. -/
def copyTo (t : Tree) (next : Nat) (r : NFA V × Nat) : NFA V × Nat :=
  let c := t.lower r.1 r.2
  (c.1.addSilent c.2 next, c.2)

/-- What holds when some optional copies have been added: the words that have left for the common end,
and those that have come to the end of the last copy. -/
structure Copied (t : Tree) (n : NFA V) (s k : Nat) (r : NFA V × Nat) : Prop where
  joins : Joins n r.1 s n.size (fun w => ∃ j, j ≤ k ∧ t.Power j w)
  last_old_or_new : r.2 = s ∨ n.size ≤ r.2
  last_lt : r.2 < r.1.size
  last_ne : r.2 ≠ n.size
  path_iff : ∀ w, Path (Added n r.1) s w r.2 ↔ t.Power k w

omit ht in
theorem copied_zero : Copied t n s 0 (n.addEmpty.addSilent s n.size, s) := by
  have hlt := hs.1
  have hjoins := Joins.direct hs
  refine
    { joins := hjoins.congr fun w => ?_
      last_old_or_new := Or.inl rfl
      last_lt := by simp only [size_addSilent, size_addEmpty]; omega
      last_ne := by simp only; omega
      path_iff := fun w => ?_ }
  · simp [power_zero_iff]
  · rw [power_zero_iff]
    exact Path.refl_iff_of_source (hjoins.not_added_source hlt)

theorem copied_succ {k : Nat} {r : NFA V × Nat} (h : Copied t n s k r) :
    Copied t n s (k + 1) (copyTo t n.size r) := by
  have hcopy := ht r.1 r.2 (h.joins.toGrows.anchored hs h.last_old_or_new h.last_lt)
  have hle := h.joins.size_le
  have hold : (t.lower r.1 r.2).2 = s ∨ n.size ≤ (t.lower r.1 r.2).2 :=
    hcopy.last_source_or_new hle h.last_old_or_new
  refine
    { joins := (Joins.branch hs h.joins hcopy h.last_old_or_new h.last_lt h.last_ne).congr
        fun w => ?_
      last_old_or_new := hold
      last_lt := by simpa [copyTo] using hcopy.last_lt
      last_ne := Joins.end_ne h.joins hcopy h.last_ne
      path_iff := fun w => ?_ }
  · simp only [h.path_iff, ← power_succ_iff]
    constructor
    · rintro (⟨j, hj, hw⟩ | hw)
      · exact ⟨j, by omega, hw⟩
      · exact ⟨k + 1, Nat.le_refl _, hw⟩
    · rintro ⟨j, hj, hw⟩
      by_cases hjk : j ≤ k
      · exact Or.inl ⟨j, hjk, hw⟩
      · obtain rfl : j = k + 1 := by omega
        exact Or.inr hw
  · simp only [copyTo, Joins.path_branch_iff hs h.joins hcopy h.last_old_or_new h.last_lt h.last_ne,
      h.path_iff, ← power_succ_iff]

theorem copied_repeat (k : Nat) :
    Copied t n s k (Nat.repeat (copyTo t n.size) k (n.addEmpty.addSilent s n.size, s)) := by
  induction k with
  | zero =>
      exact copied_zero hs
  | succ k ih =>
      exact copied_succ ht hs ih

/-- The loop of a repetition without an upper limit. -/
theorem spans_unbounded :
    Spans n
      (((t.lower (n.withEntry s) (n.size + 1)).1.addSilent
        (t.lower (n.withEntry s) (n.size + 1)).2 (n.size + 1)).addSilent
        (t.lower (n.withEntry s) (n.size + 1)).2 n.size) s n.size
      (fun w => ∃ k, t.Power k w) := by
  have hanchored : (n.withEntry s).Anchored (n.size + 1) := by
    refine ⟨by simp, fun q hq => ?_⟩
    have hlt := hs.1
    have hstep : (n.withEntry s).Step (n.size + 1) none q := .silent hq
    rcases (extends_withEntry n s).step_iff.1 hstep with hold | hadd
    · have := hold.lt_size
      omega
    · have := ((added_withEntry_iff hs).1 hadd).1
      omega
  refine (spans_loop hs (ht _ _ hanchored)).congr fun w => ?_
  constructor
  · rintro ⟨ws, hws, hw⟩
    exact ⟨ws.length, ws, rfl, hws, hw⟩
  · rintro ⟨k, ws, -, hws, hw⟩
    exact ⟨ws, hws, hw⟩

end Copies

/-! ## Every tree -/

theorem lower_bounded (t : Tree) (min max : Nat) (n : NFA V) (s : Nat) :
    lower (.repetition t min (some max)) n s =
      let r := Nat.repeat (fun r : NFA V × Nat => t.lower r.1 r.2) min (n, s)
      ((Nat.repeat (copyTo t r.1.size) (max - min) (r.1.addEmpty.addSilent r.2 r.1.size, r.2)).1,
        r.1.size) := by
  rw [lower]
  rfl

theorem lower_unbounded (t : Tree) (min : Nat) (n : NFA V) (s : Nat) :
    lower (.repetition t min none) n s =
      let r := Nat.repeat (fun r : NFA V × Nat => t.lower r.1 r.2) min (n, s)
      let c := t.lower (r.1.withEntry r.2) (r.1.size + 1)
      ((c.1.addSilent c.2 (r.1.size + 1)).addSilent c.2 r.1.size, r.1.size) := by
  rw [lower]
  simp [withEntry]

theorem lowersTo_repetition {t : Tree} (ht : t.LowersTo V) {min : Nat} {max : Option Nat}
    (hbounds : BoundsInOrder (.repetition t min max)) : (repetition t min max).LowersTo V := by
  intro n s hs
  have hreq := spans_required ht hs min
  have hlast := hreq.toGrows.anchored hs hreq.last_old_or_new hreq.last_lt
  cases max with
  | some max =>
      -- The copies above `min` are optional: each of their ends is joined to the common end.
      have hcopies := copied_repeat ht hlast (max - min)
      rw [lower_bounded]
      refine (hreq.append hcopies.joins.toSpans hs.1).congr fun w => ?_
      rw [spells_repetition_iff]
      constructor
      · rintro ⟨u, v, rfl, hu, j, hj, hv⟩
        have hle : min ≤ max := hbounds
        refine ⟨min + j, Nat.le_add_right _ _, fun m hm => ?_, power_add_iff.2 ⟨u, v, rfl, hu, hv⟩⟩
        obtain rfl : max = m := by simpa using hm
        omega
      · rintro ⟨k, hmin, hmax, hw⟩
        obtain ⟨j, rfl⟩ : ∃ j, k = min + j := ⟨k - min, by omega⟩
        rcases power_add_iff.1 hw with ⟨u, v, hw, hu, hv⟩
        have := hmax max rfl
        exact ⟨u, v, hw, hu, j, by omega, hv⟩
  | none =>
      rw [lower_unbounded]
      refine (hreq.append (spans_unbounded ht hlast) hs.1).congr fun w => ?_
      rw [spells_repetition_iff]
      constructor
      · rintro ⟨u, v, rfl, hu, k, hv⟩
        exact ⟨min + k, Nat.le_add_right _ _, fun m hm => absurd hm (by simp),
          power_add_iff.2 ⟨u, v, rfl, hu, hv⟩⟩
      · rintro ⟨k, hmin, -, hw⟩
        obtain ⟨j, rfl⟩ : ∃ j, k = min + j := ⟨k - min, by omega⟩
        rcases power_add_iff.1 hw with ⟨u, v, hw, hu, hv⟩
        exact ⟨u, v, hw, hu, j, hv⟩

theorem lower_spans {t : Tree} (ht : t.Ordered) : t.LowersTo V := by
  induction ht with
  | @characters rs _ =>
      intro n s hs
      rw [lower]
      exact (Spans.characters hs.1 rs).congr fun w => spells_characters_iff.symm
  | @sequence ts _ _ ih =>
      intro n s hs
      rw [lower]
      exact spans_lowerSequence ih n s hs
  | @choice ts _ _ ih =>
      intro n s hs
      rw [lower]
      refine ((joins_lowerChoice ih hs (Joins.empty hs.1)).toSpans).congr fun w => ?_
      simp
  | repetition hbounds _ ih =>
      exact lowersTo_repetition ih hbounds

/-- The words on the paths that lowering adds between the state it begins at and the state it answers are
the words of the tree, whatever edges the automaton had before. -/
theorem lower_language {t : Tree} (ht : t.Ordered) (n : NFA V) {source : Nat}
    (hs : n.Anchored source) (w : List Int) :
    Path (Added n (t.lower n source).1) source w (t.lower n source).2 ↔ t.Spells w :=
  (lower_spans ht n source hs).path_iff w

/-- A loop beside another branch cannot be entered from it: `b|a*` does not spell `ab`, even behind a state
that has a loop over `a` already. -/
theorem lower_language_loop_beside_branch :
    let t : Tree := .choice [.characters [.point 98], .repetition (.characters [.point 97]) 0 none]
    let n : NFA Nat := NFA.empty.addEmpty.addEdge 0 (.point 97) 0
    t.Ordered ∧ n.Anchored 0 ∧
      ¬ Path (Added n (t.lower n 0).1) 0 [97, 98] (t.lower n 0).2 := by
  intro t n
  have ht : t.Ordered := by
    refine .choice trivial fun u hu => ?_
    rcases List.mem_pair.1 hu with rfl | rfl
    · exact .characters trivial
    · exact .repetition trivial (.characters trivial)
  have hn : n.Anchored 0 := by
    have hnone : n.silent 0 = [] := rfl
    exact ⟨by decide, fun q hq => absurd hq (by simp [hnone])⟩
  refine ⟨ht, hn, fun h => ?_⟩
  rcases spells_choice_iff.1 ((lower_language ht n hn [97, 98]).1 h) with ⟨u, hu, hw⟩
  rcases List.mem_pair.1 hu with rfl | rfl
  · rcases spells_characters_iff.1 hw with ⟨r, -, p, -, hp⟩
    simp at hp
  · rcases spells_repetition_iff.1 hw with ⟨k, -, -, ws, -, hws, hflat⟩
    -- Every code point of a word of `a*` is an `a`.
    have hall : ∀ p ∈ ws.flatten, p = 97 := by
      intro p hp
      rcases List.mem_flatten.1 hp with ⟨v, hv, hpv⟩
      rcases spells_characters_iff.1 (hws v hv) with ⟨r, hr, q, hq, rfl⟩
      obtain rfl : r = .point 97 := by simpa using hr
      obtain rfl : p = q := by simpa using hpv
      exact Range.covers_point_iff.1 hq
    have h98 := hall 98 (by rw [hflat]; simp)
    simp at h98

end Tree

end MaximalMunch
