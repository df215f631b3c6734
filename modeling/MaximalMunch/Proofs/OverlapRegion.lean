import Mathlib.Data.List.TakeWhile
import MaximalMunch.Region

/-!
# What overlap regions cover

The regions of a list of edges cover the code points of the edges, each with the targets of all edges over
it, and no two regions share a code point.

- `Region.Partition`        : what the regions of a list of edges have in common
- `Region.partition_sweep`  : the sweep computes them, step by step
- `Region.partition_ofEdges`: so the regions of any list of proper edges are such regions
-/

namespace MaximalMunch

namespace Region

/-- Edges that ascend by their first code points. -/
def Ascending (es : List Edge) : Prop := es.Pairwise fun a b => a.lo ≤ b.lo

/-- Each edge has at least one code point. -/
def AllProper (es : List Edge) : Prop := ∀ e ∈ es, e.Proper

/-- Separate regions, in ascending order, that lead from each code point to the targets of the edges
over it. -/
structure Partition (es : List Edge) (rs : List Region) : Prop where
  proper : ∀ r ∈ rs, r.Proper
  ascending : rs.Pairwise fun a b => a.hi < b.lo
  targets_ne_nil : ∀ r ∈ rs, r.targets ≠ []
  covers_iff : ∀ p t, (∃ r ∈ rs, r.Covers p ∧ t ∈ r.targets) ↔ ∃ e ∈ es, e.Covers p ∧ e.target = t

namespace Partition

variable {es : List Edge} {rs : List Region} {p : Int}

/-- A code point lies in one region only. -/
theorem eq_of_covers (h : Partition es rs) {r r' : Region} (hr : r ∈ rs) (hr' : r' ∈ rs)
    (hp : r.Covers p) (hp' : r'.Covers p) : r = r' := by
  have hsep : rs.Pairwise fun a b => a.Covers p → b.Covers p → a = b := by
    refine h.ascending.imp fun hab ha hb => ?_
    have := ha.2
    have := hb.1
    omega
  have hflip : rs.Pairwise (flip fun a b => a.Covers p → b.Covers p → a = b) :=
    hsep.imp fun hab hb ha => (hab ha hb).symm
  exact hsep.forall_of_forall_of_flip (fun _ _ _ _ => rfl) hflip hr hr' hp hp'

theorem mem_targets_iff (h : Partition es rs) {r : Region} (hr : r ∈ rs) (hp : r.Covers p) {t : Nat} :
    t ∈ r.targets ↔ ∃ e ∈ es, e.Covers p ∧ e.target = t := by
  rw [← h.covers_iff p t]
  constructor
  · intro ht
    exact ⟨r, hr, hp, ht⟩
  · rintro ⟨r', hr', hp', ht⟩
    rw [h.eq_of_covers hr hr' hp hp']
    exact ht

/-- A code point lies in some region if an edge leads over it. -/
theorem exists_covers_iff (h : Partition es rs) :
    (∃ r ∈ rs, r.Covers p) ↔ ∃ e ∈ es, e.Covers p := by
  constructor
  · rintro ⟨r, hr, hp⟩
    rcases List.exists_mem_of_ne_nil _ (h.targets_ne_nil r hr) with ⟨t, ht⟩
    rcases (h.mem_targets_iff hr hp).1 ht with ⟨e, he, hcov, -⟩
    exact ⟨e, he, hcov⟩
  · rintro ⟨e, he, hp⟩
    rcases (h.covers_iff p e.target).2 ⟨e, he, hp, rfl⟩ with ⟨r, hr, hcov, -⟩
    exact ⟨r, hr, hcov⟩

/-- A region begins under an edge. -/
theorem exists_edge (h : Partition es rs) {r : Region} (hr : r ∈ rs) :
    ∃ e ∈ es, e.Covers r.lo :=
  h.exists_covers_iff.1 ⟨r, hr, Int.le_refl _, h.proper r hr⟩

end Partition

/-! ## One step of the sweep -/

theorem leastEnd_le {e o : Edge} {es : List Edge} (ho : o ∈ e :: es) : leastEnd e es ≤ o.hi := by
  have hfold : ∀ (es : List Edge) (m : Int), es.foldl (fun m o => min m o.hi) m ≤ m ∧
      ∀ o ∈ es, es.foldl (fun m o => min m o.hi) m ≤ o.hi := by
    intro es
    induction es with
    | nil =>
        intro m
        exact ⟨Int.le_refl _, fun o ho => absurd ho (by simp)⟩
    | cons x xs ih =>
        intro m
        have h := ih (min m x.hi)
        refine ⟨Int.le_trans h.1 (Int.min_le_left _ _), fun o ho => ?_⟩
        rcases List.mem_cons.1 ho with rfl | ho
        · exact Int.le_trans h.1 (Int.min_le_right _ _)
        · exact h.2 o ho
  rcases List.mem_cons.1 ho with rfl | ho
  · exact (hfold es o.hi).1
  · exact (hfold es e.hi).2 o ho

section Step

variable {e : Edge} {es : List Edge} (hasc : Ascending (e :: es)) (hprop : AllProper (e :: es))

/-- The edges that begin with the first one. -/
def sameBegin (e : Edge) (es : List Edge) : List Edge := es.takeWhile fun o => o.lo == e.lo

/-- The edges that begin behind the begin of the first one. -/
def laterBegin (e : Edge) (es : List Edge) : List Edge := es.dropWhile fun o => o.lo == e.lo

theorem same_append_later (e : Edge) (es : List Edge) :
    sameBegin e es ++ laterBegin e es = es := List.takeWhile_append_dropWhile

theorem mem_cons_iff_same_or_later {o : Edge} :
    o ∈ e :: es ↔ o ∈ e :: sameBegin e es ∨ o ∈ laterBegin e es := by
  rw [← List.mem_append, List.cons_append, same_append_later]

theorem lo_of_mem_same {o : Edge} (ho : o ∈ e :: sameBegin e es) : o.lo = e.lo := by
  rcases List.mem_cons.1 ho with rfl | ho
  · rfl
  · simpa using List.mem_takeWhile_imp ho

include hasc in
theorem later_ascending : Ascending (laterBegin e es) :=
  (List.pairwise_cons.1 hasc).2.sublist (List.dropWhile_sublist _)

include hasc in
theorem lt_lo_of_mem_later {o : Edge} (ho : o ∈ laterBegin e es) : e.lo < o.lo := by
  cases hl : laterBegin e es with
  | nil =>
      rw [hl] at ho
      exact absurd ho (by simp)
  | cons l ls =>
      have hmem : l ∈ es := (List.dropWhile_sublist _).subset (by rw [← laterBegin, hl]; simp)
      have hle : e.lo ≤ l.lo := (List.pairwise_cons.1 hasc).1 l hmem
      have hne : l.lo ≠ e.lo := by
        have hhead := List.head?_dropWhile_not (fun o : Edge => o.lo == e.lo) es
        rw [← laterBegin, hl] at hhead
        simpa using hhead
      have hasc' := later_ascending hasc
      rw [hl] at ho hasc'
      rcases List.mem_cons.1 ho with rfl | ho
      · omega
      · have := (List.pairwise_cons.1 hasc').1 o ho
        omega

/-- Where the first region ends. -/
def firstStop (e : Edge) (es : List Edge) : Int := stop e (sameBegin e es) (laterBegin e es)

theorem firstStop_le_hi {o : Edge} (ho : o ∈ e :: sameBegin e es) : firstStop e es ≤ o.hi := by
  have hle := leastEnd_le ho
  unfold firstStop stop
  split
  · exact hle
  · exact Int.le_trans (Int.min_le_left _ _) hle

include hasc in
theorem firstStop_lt_lo {o : Edge} (ho : o ∈ laterBegin e es) : firstStop e es < o.lo := by
  have hasc' := later_ascending hasc
  unfold firstStop stop
  split
  · rename_i hl
    rw [hl] at ho
    exact absurd ho (by simp)
  · rename_i l ls hl
    rw [hl] at ho hasc'
    have hmin := Int.min_le_right (leastEnd e (sameBegin e es)) (l.lo - 1)
    rcases List.mem_cons.1 ho with rfl | ho
    · omega
    · have := (List.pairwise_cons.1 hasc').1 o ho
      omega

include hasc hprop in
theorem lo_le_firstStop : e.lo ≤ firstStop e es := by
  have hend : e.lo ≤ leastEnd e (sameBegin e es) := by
    rcases leastEnd_mem e (sameBegin e es) with ⟨o, ho, hoe⟩
    have hlo := lo_of_mem_same ho
    have hmem : o ∈ e :: es := by
      rcases List.mem_cons.1 ho with rfl | ho
      · simp
      · exact List.mem_cons_of_mem _ ((List.takeWhile_sublist _).subset ho)
    have hproper : o.lo ≤ o.hi := hprop o hmem
    omega
  unfold firstStop stop
  split
  · exact hend
  · rename_i l ls hl
    have hlater := lt_lo_of_mem_later hasc (o := l) (by rw [hl]; simp)
    rw [Int.le_min]
    omega

/-- What is left behind the first region. -/
def behind (e : Edge) (es : List Edge) : List Edge := remainder e (sameBegin e es) (laterBegin e es)

theorem mem_behind_iff {o : Edge} :
    o ∈ behind e es ↔ (∃ x ∈ e :: sameBegin e es, firstStop e es < x.hi ∧
      o = { x with lo := firstStop e es + 1 }) ∨ o ∈ laterBegin e es := by
  unfold behind remainder
  rw [List.mem_append, List.mem_filterMap, ← firstStop]
  refine or_congr_left ?_
  constructor
  · rintro ⟨x, hx, ho⟩
    unfold beyond? at ho
    split at ho
    · exact absurd ho (by simp)
    · exact ⟨x, hx, by omega, by simpa using ho.symm⟩
  · rintro ⟨x, hx, hlt, rfl⟩
    refine ⟨x, hx, ?_⟩
    unfold beyond?
    rw [if_neg (by omega)]

include hasc in
theorem firstStop_lt_of_mem_behind {o : Edge} (ho : o ∈ behind e es) : firstStop e es < o.lo := by
  rcases mem_behind_iff.1 ho with ⟨x, -, -, rfl⟩ | ho
  · simp only
    omega
  · exact firstStop_lt_lo hasc ho

include hasc in
theorem behind_ascending : Ascending (behind e es) := by
  refine List.pairwise_append.2 ⟨?_, later_ascending hasc, fun x hx y hy => ?_⟩
  · -- What is left of the edges in front begins at one code point.
    refine List.Pairwise.imp_of_mem (R := fun _ _ => True) (fun {x y} hx hy _ => ?_)
      (List.pairwise_of_forall fun _ _ => trivial)
    have hlo : x.lo = y.lo :=
      (lo_of_mem_remainder_front hx).trans (lo_of_mem_remainder_front hy).symm
    exact Int.le_of_eq hlo
  · have hlt := firstStop_lt_lo hasc hy
    rw [firstStop] at hlt
    rw [lo_of_mem_remainder_front hx]
    omega

include hprop in
theorem behind_proper : AllProper (behind e es) := by
  intro o ho
  rcases mem_behind_iff.1 ho with ⟨x, -, hlt, rfl⟩ | ho
  · show firstStop e es + 1 ≤ x.hi
    omega
  · exact hprop o (List.mem_cons_of_mem _ ((List.dropWhile_sublist _).subset ho))

include hasc hprop in
/-- Over the first region lie the edges in front; behind it everything is as before. -/
theorem exists_covers_step {p : Int} {t : Nat} :
    ((e.lo ≤ p ∧ p ≤ firstStop e es) ∧ ∃ o ∈ e :: sameBegin e es, o.target = t) ∨
        (∃ o ∈ behind e es, o.Covers p ∧ o.target = t) ↔
      ∃ o ∈ e :: es, o.Covers p ∧ o.target = t := by
  constructor
  · rintro (⟨hp, o, ho, rfl⟩ | ⟨o, ho, hp, rfl⟩)
    · have hlo := lo_of_mem_same ho
      have hhi := firstStop_le_hi ho
      exact ⟨o, mem_cons_iff_same_or_later.2 (Or.inl ho), ⟨by omega, by omega⟩, rfl⟩
    · rcases mem_behind_iff.1 ho with ⟨x, hx, -, rfl⟩ | ho
      · have hlo := lo_of_mem_same hx
        have hstop := lo_le_firstStop hasc hprop
        have hbegin : firstStop e es + 1 ≤ p := hp.1
        exact ⟨x, mem_cons_iff_same_or_later.2 (Or.inl hx), ⟨by omega, hp.2⟩, rfl⟩
      · exact ⟨o, mem_cons_iff_same_or_later.2 (Or.inr ho), hp, rfl⟩
  · rintro ⟨o, ho, hp, rfl⟩
    rcases mem_cons_iff_same_or_later.1 ho with ho | ho
    · -- An edge in front is cut where the first region ends.
      have hlo := lo_of_mem_same ho
      by_cases hstop : p ≤ firstStop e es
      · have := hp.1
        exact Or.inl ⟨⟨by omega, hstop⟩, o, ho, rfl⟩
      · have hhi := hp.2
        refine Or.inr ⟨{ o with lo := firstStop e es + 1 },
          mem_behind_iff.2 (Or.inl ⟨o, ho, by omega, rfl⟩), ⟨?_, hhi⟩, rfl⟩
        show firstStop e es + 1 ≤ p
        omega
    · exact Or.inr ⟨o, mem_behind_iff.2 (Or.inr ho), hp, rfl⟩

end Step

/-! ## The whole sweep -/

theorem partition_sweep (es : List Edge) (hasc : Ascending es) (hprop : AllProper es) :
    Partition es (sweep es) := by
  fun_induction sweep es with
  | case1 =>
      refine ⟨by simp, List.Pairwise.nil, by simp, by simp⟩
  | case2 e es same later ih =>
      have hrest : Partition (behind e es) (sweep (behind e es)) :=
        ih (behind_ascending hasc) (behind_proper hprop)
      refine
        { proper := fun r hr => ?_
          ascending := List.pairwise_cons.2 ⟨fun r hr => ?_, hrest.ascending⟩
          targets_ne_nil := fun r hr => ?_
          covers_iff := fun p t => ?_ }
      · rcases List.mem_cons.1 hr with rfl | hr
        · exact lo_le_firstStop hasc hprop
        · exact hrest.proper r hr
      · -- A later region begins under an edge that begins behind the first region.
        rcases hrest.exists_edge hr with ⟨o, ho, hlo⟩
        have hlt := firstStop_lt_of_mem_behind hasc ho
        exact Int.lt_of_lt_of_le hlt hlo.1
      · rcases List.mem_cons.1 hr with rfl | hr
        · have hmem : e.target ∈ ((e :: same).map Edge.target).eraseDups := by simp
          exact List.ne_nil_of_mem hmem
        · exact hrest.targets_ne_nil r hr
      · have hmem : t ∈ ((e :: same).map Edge.target).eraseDups ↔
            ∃ o ∈ e :: sameBegin e es, o.target = t := by
          rw [List.mem_eraseDups, List.mem_map]
          rfl
        -- The first region is one half of the step, and the rest of the sweep is the other.
        rw [← exists_covers_step hasc hprop, ← hrest.covers_iff p t]
        constructor
        · rintro ⟨r, hr, hp, ht⟩
          rcases List.mem_cons.1 hr with rfl | hr
          · exact Or.inl ⟨hp, hmem.1 ht⟩
          · exact Or.inr ⟨r, hr, hp, ht⟩
        · rintro (⟨hp, ho⟩ | ⟨r, hr, hp, ht⟩)
          · exact ⟨_, List.mem_cons_self, hp, hmem.2 ho⟩
          · exact ⟨r, List.mem_cons_of_mem _ hr, hp, ht⟩

/-- The order in which edges are swept. -/
def byBegin (es : List Edge) : List Edge := es.mergeSort fun a b => decide (a.lo ≤ b.lo)

@[simp] theorem mem_byBegin {e : Edge} {es : List Edge} : e ∈ byBegin es ↔ e ∈ es := List.mem_mergeSort

section ByBegin

variable (a b c : Edge)

theorem begin_trans (hab : decide (a.lo ≤ b.lo) = true) (hbc : decide (b.lo ≤ c.lo) = true) :
    decide (a.lo ≤ c.lo) = true := by
  simp only [decide_eq_true_eq] at hab hbc ⊢
  omega

theorem begin_total : (decide (a.lo ≤ b.lo) || decide (b.lo ≤ a.lo)) = true := by
  simp only [Bool.or_eq_true, decide_eq_true_eq]
  omega

end ByBegin

theorem ascending_byBegin (es : List Edge) : Ascending (byBegin es) :=
  (List.pairwise_mergeSort begin_trans begin_total es).imp of_decide_eq_true

theorem AllProper.byBegin {es : List Edge} (h : AllProper es) : AllProper (byBegin es) :=
  fun e he => h e (mem_byBegin.1 he)

/-- The regions of proper edges cover what the edges cover. -/
theorem partition_ofEdges {es : List Edge} (hprop : AllProper es) : Partition es (ofEdges es) := by
  have h := partition_sweep _ (ascending_byBegin es) hprop.byBegin
  exact
    { h with
      covers_iff := fun p t => by
        rw [ofEdges, ← byBegin, h.covers_iff p t]
        simp only [mem_byBegin] }

end Region

end MaximalMunch
