import Mathlib.Data.Fintype.Basic
import Mathlib.Tactic.Choose
import MaximalMunch.Proofs.OverlapRegion

/-!
# Overlap regions are maximal runs

The regions of a list of edges are the longest runs of consecutive code points under the same edges, all of
them, and there is no shorter list of ranges that tells the edges apart.

- `Region.edgesOver`          : the positions of the edges over a code point
- `Region.MaximalRun`         : code points under the same edges, and as many of them as there are
- `Region.maximalRun_iff`     : a run is maximal if other edges lie over its neighbours
- `Region.maximalRun_sweep`   : the sweep makes maximal runs, step by step
- `Region.targets_sweep`      : the targets of a region, in the order of the edges
- `Region.Resolves`           : ranges that cover the edges without crossing an end of one
- `Region.ofEdges_correct`    : the regions are the maximal runs, with the targets of the edges over them
-/

namespace MaximalMunch

namespace Region

/-- The positions of the edges over a code point. -/
def edgesOver (es : List Edge) (p : Int) : Finset (Fin es.length) := {i | es[i].Covers p}

/-- Consecutive code points under the same edges, at least one. -/
structure Run (es : List Edge) (r : Range) : Prop where
  proper : r.Proper
  covered : (edgesOver es r.lo).Nonempty
  uniform : ∀ p q, r.Covers p → r.Covers q → edgesOver es p = edgesOver es q

/-- A run that is part of no longer one. -/
structure MaximalRun (es : List Edge) (r : Range) : Prop extends Run es r where
  maximal : ∀ r', Run es r' → (∀ p, r.Covers p → r'.Covers p) → r' = r

section Over

variable {es : List Edge} {p q : Int}

theorem edgesOver_eq_iff : edgesOver es p = edgesOver es q ↔ ∀ e ∈ es, e.Covers p ↔ e.Covers q := by
  simp only [edgesOver, Finset.ext_iff, Finset.mem_filter_univ, List.forall_mem_iff_getElem, Fin.forall_iff,
    Fin.getElem_fin]

theorem edgesOver_nonempty_iff : (edgesOver es p).Nonempty ↔ ∃ e ∈ es, e.Covers p := by
  simp only [edgesOver, Finset.Nonempty, Finset.mem_filter_univ, List.exists_mem_iff_getElem, Fin.exists_iff,
    Fin.getElem_fin]

end Over

/-! ## Runs -/

section Runs

variable {es : List Edge} {r r' : Range}

/-- Two runs with a common code point are one run together. -/
theorem Run.union (h : Run es r) (h' : Run es r') {p : Int} (hp : r.Covers p) (hp' : r'.Covers p) :
    Run es ⟨min r.lo r'.lo, max r.hi r'.hi⟩ := by
  obtain ⟨hlo, hhi⟩ := hp
  obtain ⟨hlo', hhi'⟩ := hp'
  -- There is no gap between the two, so what lies in their hull lies in one of them.
  have hcommon : ∀ q, min r.lo r'.lo ≤ q → q ≤ max r.hi r'.hi → edgesOver es q = edgesOver es p := by
    intro q hmin hmax
    by_cases hq : r.Covers q
    · exact h.uniform q p hq ⟨hlo, hhi⟩
    · refine h'.uniform q p ?_ ⟨hlo', hhi'⟩
      unfold Range.Covers at hq ⊢
      omega
  refine ⟨?_, ?_, fun a b ha hb => ?_⟩
  · show min r.lo r'.lo ≤ max r.hi r'.hi
    omega
  · show (edgesOver es (min r.lo r'.lo)).Nonempty
    rw [hcommon _ (Int.le_refl _) (by omega), ← h.uniform r.lo p ⟨Int.le_refl _, h.proper⟩ ⟨hlo, hhi⟩]
    exact h.covered
  · rw [hcommon a ha.1 ha.2, hcommon b hb.1 hb.2]

/-- Two neighbours under the same edges are a run. -/
theorem Run.pair {p : Int} (h : edgesOver es p = edgesOver es (p + 1)) (hcov : (edgesOver es p).Nonempty) :
    Run es ⟨p, p + 1⟩ := by
  refine ⟨show p ≤ p + 1 by omega, hcov, fun a b ha hb => ?_⟩
  have hsame : ∀ q, (⟨p, p + 1⟩ : Range).Covers q → edgesOver es q = edgesOver es p := by
    rintro q ⟨hlo, hhi⟩
    rcases Int.lt_or_eq_of_le hhi with hlt | rfl
    · obtain rfl : q = p := Int.le_antisymm (Int.lt_add_one_iff.1 hlt) hlo
      rfl
    · exact h.symm
  rw [hsame a ha, hsame b hb]

/-- A maximal run holds every run that it shares a code point with. -/
theorem MaximalRun.covers_of_run (h : MaximalRun es r) (h' : Run es r') {p : Int} (hp : r.Covers p)
    (hp' : r'.Covers p) {q : Int} (hq : r'.Covers q) : r.Covers q := by
  have heq := h.maximal _ (h.toRun.union h' hp hp') fun a ha => by
    have := ha.1
    have := ha.2
    exact ⟨by simp only; omega, by simp only; omega⟩
  obtain ⟨hlo, hhi⟩ := hq
  rw [← heq]
  exact ⟨by simp only; omega, by simp only; omega⟩

theorem MaximalRun.eq_of_covers (h : MaximalRun es r) (h' : MaximalRun es r') {p : Int}
    (hp : r.Covers p) (hp' : r'.Covers p) : r = r' :=
  h'.maximal r h.toRun fun _ hq => h.covers_of_run h'.toRun hp hp' hq

/-- A run is maximal if and only if it cannot be continued at either end. -/
theorem maximalRun_iff :
    MaximalRun es r ↔
      Run es r ∧ edgesOver es (r.lo - 1) ≠ edgesOver es r.lo ∧
        edgesOver es r.hi ≠ edgesOver es (r.hi + 1) := by
  constructor
  · intro h
    have hlo : r.Covers r.lo := ⟨Int.le_refl _, h.proper⟩
    have hhi : r.Covers r.hi := ⟨h.proper, Int.le_refl _⟩
    refine ⟨h.toRun, fun heq => ?_, fun heq => ?_⟩
    · have hpair : Run es ⟨r.lo - 1, r.lo - 1 + 1⟩ :=
        .pair (by rw [Int.sub_add_cancel, heq]) (by rw [heq]; exact h.covered)
      have := (h.covers_of_run hpair hlo ⟨by simp only; omega, by simp only; omega⟩
        ⟨Int.le_refl _, hpair.proper⟩).1
      simp only at this
      omega
    · have hcov : (edgesOver es r.hi).Nonempty := by
        rw [← h.uniform _ _ hlo hhi]
        exact h.covered
      have hpair : Run es ⟨r.hi, r.hi + 1⟩ := .pair heq hcov
      have := (h.covers_of_run hpair hhi ⟨Int.le_refl _, hpair.proper⟩
        ⟨hpair.proper, Int.le_refl _⟩).2
      simp only at this
      omega
  · rintro ⟨h, hleft, hright⟩
    refine ⟨h, fun r' h' hsub => ?_⟩
    obtain ⟨hlo, hhi⟩ := hsub r.lo ⟨Int.le_refl _, h.proper⟩
    obtain ⟨hlo', hhi'⟩ := hsub r.hi ⟨h.proper, Int.le_refl _⟩
    -- A longer run would hold one of the two neighbours.
    have hbegin : r'.lo = r.lo := by
      by_contra hne
      exact hleft (h'.uniform _ _ ⟨by omega, by omega⟩ ⟨hlo, hhi⟩)
    have hend : r'.hi = r.hi := by
      by_contra hne
      exact hright (h'.uniform _ _ ⟨hlo', hhi'⟩ ⟨by omega, by omega⟩)
    cases r
    cases r'
    simp only [Range.mk.injEq]
    exact ⟨hbegin, hend⟩

end Runs

/-! ## The runs of the sweep -/

section Step

variable {e : Edge} {es : List Edge} (hasc : Ascending (e :: es)) (hprop : AllProper (e :: es))

include hasc in
/-- Over the first region lie the edges that begin with it. -/
theorem covers_first_iff {o : Edge} (ho : o ∈ e :: es) {p : Int} (hlo : e.lo ≤ p)
    (hhi : p ≤ firstStop e es) : o.Covers p ↔ o ∈ e :: sameBegin e es := by
  constructor
  · intro hp
    refine (mem_cons_iff_same_or_later.1 ho).resolve_right fun hlater => ?_
    have := firstStop_lt_lo hasc hlater
    have := hp.1
    omega
  · intro hfront
    have := firstStop_le_hi hfront
    have := lo_of_mem_same hfront
    exact ⟨by omega, by omega⟩

include hasc hprop in
/-- Behind the first region, the edges that are left lie where the edges lay before. -/
theorem edgesOver_behind_iff {p q : Int} (hp : firstStop e es < p) (hq : firstStop e es < q) :
    edgesOver (behind e es) p = edgesOver (behind e es) q ↔ edgesOver (e :: es) p = edgesOver (e :: es) q := by
  have hstop := lo_le_firstStop hasc hprop
  have hrest : ∀ x ∈ e :: sameBegin e es, ∀ a, firstStop e es < a →
      (({ x with lo := firstStop e es + 1 } : Edge).Covers a ↔ x.Covers a) := by
    intro x hx a ha
    have := lo_of_mem_same hx
    simp only [Range.Covers]
    omega
  rw [edgesOver_eq_iff, edgesOver_eq_iff]
  constructor
  · intro h o ho
    rcases mem_cons_iff_same_or_later.1 ho with hfront | hlater
    · by_cases hend : firstStop e es < o.hi
      · rw [← hrest o hfront p hp, ← hrest o hfront q hq]
        exact h _ (mem_behind_iff.2 (Or.inl ⟨o, hfront, hend, rfl⟩))
      · simp only [Range.Covers]
        omega
    · exact h o (mem_behind_iff.2 (Or.inr hlater))
  · intro h o ho
    rcases mem_behind_iff.1 ho with ⟨x, hx, -, rfl⟩ | hlater
    · rw [hrest x hx p hp, hrest x hx q hq]
      exact h x (mem_cons_iff_same_or_later.2 (Or.inl hx))
    · exact h o (mem_cons_iff_same_or_later.2 (Or.inr hlater))

include hasc hprop in
/-- The first region ends where an edge over it ends or another one begins behind it. -/
theorem edgesOver_firstStop_ne :
    edgesOver (e :: es) (firstStop e es) ≠ edgesOver (e :: es) (firstStop e es + 1) := by
  have hstop := lo_le_firstStop hasc hprop
  rw [Ne, edgesOver_eq_iff]
  intro h
  by_cases hends : ∃ o ∈ e :: sameBegin e es, o.hi ≤ firstStop e es
  · -- One of the edges that begin here ends with the region.
    obtain ⟨o, hfront, hend⟩ := hends
    have ho : o ∈ e :: es := mem_cons_iff_same_or_later.2 (Or.inl hfront)
    have := ((h o ho).1 ((covers_first_iff hasc ho hstop (Int.le_refl _)).2 hfront)).2
    omega
  · -- All of them go on, so the region ends because another edge begins behind it.
    obtain ⟨l, ls, hl, heq⟩ := exists_of_none_ends hends
    have hlater : l ∈ laterBegin e es := by simp [hl]
    have hmem : l ∈ e :: es := mem_cons_iff_same_or_later.2 (Or.inr hlater)
    have hproper : l.lo ≤ l.hi := hprop l hmem
    rw [← firstStop] at heq
    have := ((h l hmem).2 ⟨by omega, by omega⟩).1
    omega

include hasc hprop in
theorem maximalRun_first : MaximalRun (e :: es) ⟨e.lo, firstStop e es⟩ := by
  have hstop := lo_le_firstStop hasc hprop
  have hproper : e.lo ≤ e.hi := hprop e (by simp)
  refine maximalRun_iff.2 ⟨⟨hstop, ?_, fun p q hp hq => ?_⟩, ?_, edgesOver_firstStop_ne hasc hprop⟩
  · exact edgesOver_nonempty_iff.2 ⟨e, by simp, Int.le_refl _, hproper⟩
  · refine edgesOver_eq_iff.2 fun o ho => ?_
    rw [covers_first_iff hasc ho hp.1 hp.2, covers_first_iff hasc ho hq.1 hq.2]
  · intro heq
    have := ((edgesOver_eq_iff.1 heq e (by simp)).2 ⟨Int.le_refl _, hproper⟩).1
    simp only at this
    omega

include hasc hprop in
theorem maximalRun_of_behind {r : Range} (h : MaximalRun (behind e es) r) : MaximalRun (e :: es) r := by
  obtain ⟨hrun, hleft, hright⟩ := maximalRun_iff.1 h
  have hproper : r.lo ≤ r.hi := hrun.proper
  obtain ⟨o, ho, hlo⟩ := edgesOver_nonempty_iff.1 hrun.covered
  have hbegin : firstStop e es < r.lo := Int.lt_of_lt_of_le (firstStop_lt_of_mem_behind hasc ho) hlo.1
  have hsame : ∀ p q, firstStop e es < p → firstStop e es < q →
      (edgesOver (behind e es) p = edgesOver (behind e es) q ↔
        edgesOver (e :: es) p = edgesOver (e :: es) q) :=
    fun _ _ => edgesOver_behind_iff hasc hprop
  refine maximalRun_iff.2 ⟨⟨hproper, ?_, fun p q hp hq => ?_⟩, fun heq => ?_, fun heq => ?_⟩
  · obtain ⟨x, hx, hcov, -⟩ := (exists_covers_step hasc hprop).1 (Or.inr ⟨o, ho, hlo, rfl⟩)
    exact edgesOver_nonempty_iff.2 ⟨x, hx, hcov⟩
  · have := hp.1
    have := hq.1
    exact (hsame p q (by omega) (by omega)).1 (hrun.uniform p q hp hq)
  · by_cases hnext : firstStop e es < r.lo - 1
    · exact hleft ((hsame _ _ hnext hbegin).2 heq)
    · -- The run begins right behind the first region.
      obtain hlo : r.lo = firstStop e es + 1 := by omega
      rw [hlo, Int.add_sub_cancel] at heq
      exact edgesOver_firstStop_ne hasc hprop heq
  · exact hright ((hsame _ _ (by omega) (by omega)).2 heq)

end Step

theorem maximalRun_sweep (es : List Edge) (hasc : Ascending es) (hprop : AllProper es) :
    ∀ r ∈ sweep es, MaximalRun es r.toRange := by
  fun_induction sweep es with
  | case1 =>
      simp
  | case2 e es same later ih =>
      intro r hr
      rcases List.mem_cons.1 hr with rfl | hr
      · exact maximalRun_first hasc hprop
      · exact maximalRun_of_behind hasc hprop (ih (behind_ascending hasc) (behind_proper hprop) r hr)

/-! ## The targets of a region -/

/-- The targets of the edges over a code point, each one once. -/
def targetsOver (es : List Edge) (p : Int) : List Nat :=
  ((es.filter fun e => e.Covers p).map Edge.target).eraseDups

/-- Cutting edges off does not change which targets lie over a code point behind the cut. -/
theorem map_target_filter_beyond? {s p : Int} {es : List Edge} (hlo : ∀ e ∈ es, e.lo ≤ s) (hp : s < p) :
    ((es.filterMap (beyond? s)).filter fun e => e.Covers p).map Edge.target =
      (es.filter fun e => e.Covers p).map Edge.target := by
  induction es with
  | nil =>
      rfl
  | cons e es ih =>
      have hrest := ih fun o ho => hlo o (by simp [ho])
      have hle := hlo e (by simp)
      by_cases hend : e.hi ≤ s
      · have hnot : ¬ e.Covers p := fun hcov => by
          have := hcov.2
          omega
        simp [beyond?, hend, hnot, hrest]
      · have hsame : (Range.Covers ⟨s + 1, e.hi⟩ p) = e.Covers p := by
          simp only [Range.Covers, eq_iff_iff]
          omega
        by_cases hcov : e.Covers p
        · simp [beyond?, hend, hsame, hcov, hrest]
        · simp [beyond?, hend, hsame, hcov, hrest]

section Step

variable {e : Edge} {es : List Edge} (hasc : Ascending (e :: es)) (hprop : AllProper (e :: es)) {p : Int}

include hasc in
theorem targetsOver_first (hlo : e.lo ≤ p) (hhi : p ≤ firstStop e es) :
    targetsOver (e :: es) p = ((e :: sameBegin e es).map Edge.target).eraseDups := by
  have hsplit : e :: es = (e :: sameBegin e es) ++ laterBegin e es := by
    rw [List.cons_append, same_append_later]
  have hfront : (e :: sameBegin e es).filter (fun o => o.Covers p) = e :: sameBegin e es := by
    refine List.filter_eq_self.2 fun o ho => decide_eq_true ?_
    exact (covers_first_iff hasc (mem_cons_iff_same_or_later.2 (Or.inl ho)) hlo hhi).2 ho
  have hlater : (laterBegin e es).filter (fun o => o.Covers p) = [] := by
    refine List.filter_eq_nil_iff.2 fun o ho hcov => ?_
    have := firstStop_lt_lo hasc ho
    have := (of_decide_eq_true hcov).1
    omega
  rw [targetsOver, hsplit, List.filter_append, hfront, hlater, List.append_nil]

include hasc hprop in
theorem targetsOver_behind (hp : firstStop e es < p) :
    targetsOver (behind e es) p = targetsOver (e :: es) p := by
  have hstop := lo_le_firstStop hasc hprop
  have hsplit : e :: es = (e :: sameBegin e es) ++ laterBegin e es := by
    rw [List.cons_append, same_append_later]
  have hfront : ∀ o ∈ e :: sameBegin e es, o.lo ≤ firstStop e es := by
    intro o ho
    rw [lo_of_mem_same ho]
    exact hstop
  rw [targetsOver, targetsOver, hsplit, behind, remainder, ← firstStop, List.filter_append,
    List.filter_append, List.map_append, List.map_append, map_target_filter_beyond? hfront hp]

end Step

theorem targets_sweep (es : List Edge) (hasc : Ascending es) (hprop : AllProper es) :
    ∀ r ∈ sweep es, ∀ p, r.Covers p → r.targets = targetsOver es p := by
  fun_induction sweep es with
  | case1 =>
      simp
  | case2 e es same later ih =>
      intro r hr p hp
      rcases List.mem_cons.1 hr with rfl | hr
      · exact (targetsOver_first hasc hp.1 hp.2).symm
      · have hasc' := behind_ascending hasc
        have hprop' : AllProper (behind e es) := behind_proper hprop
        -- What is left lies behind the first region, and so does the code point.
        obtain ⟨o, ho, hcov⟩ := (partition_sweep _ hasc' hprop').exists_covers_iff.1 ⟨r, hr, hp⟩
        have hlt := firstStop_lt_of_mem_behind hasc ho
        rw [← targetsOver_behind hasc hprop (Int.lt_of_lt_of_le hlt hcov.1)]
        exact ih hasc' hprop' r hr p hp

/-! ## Any list of edges -/

/-- The edges of `es` by their first code points, and in the order of `es` where these are equal. -/
structure StablySorted (es sorted : List Edge) : Prop where
  perm : sorted.Perm es
  ascending : Ascending sorted
  stable : ∀ p, sorted.filter (fun e => e.lo = p) = es.filter (fun e => e.lo = p)

theorem stablySorted_byBegin (es : List Edge) : StablySorted es (byBegin es) where
  perm := List.mergeSort_perm es _
  ascending := ascending_byBegin es
  stable := by
    intro p
    have hperm : (byBegin es).Perm es := List.mergeSort_perm es _
    -- Edges that begin together are in order, so sorting keeps them as a sublist.
    have hsorted : (es.filter fun e => e.lo = p).Pairwise fun a b => decide (a.lo ≤ b.lo) = true := by
      refine List.pairwise_of_forall_mem_list fun a ha b hb => decide_eq_true ?_
      have hlo : a.lo = p := of_decide_eq_true (List.mem_filter.1 ha).2
      have hlo' : b.lo = p := of_decide_eq_true (List.mem_filter.1 hb).2
      omega
    have hsub : (es.filter fun e => e.lo = p).Sublist (byBegin es) :=
      List.sublist_mergeSort begin_trans begin_total hsorted List.filter_sublist
    have hfilter := hsub.filter fun e => decide (e.lo = p)
    simp only [List.filter_filter, Bool.and_self] at hfilter
    exact (hfilter.eq_of_length (hperm.filter _).length_eq.symm).symm

section Regions

variable {es : List Edge}

/-- The same edges lie over two code points whatever order the edges are listed in. -/
theorem edgesOver_byBegin_iff {p q : Int} :
    edgesOver (byBegin es) p = edgesOver (byBegin es) q ↔ edgesOver es p = edgesOver es q := by
  simp only [edgesOver_eq_iff, mem_byBegin]

theorem run_byBegin_iff {r : Range} : Run (byBegin es) r ↔ Run es r := by
  have hcov : (edgesOver (byBegin es) r.lo).Nonempty ↔ (edgesOver es r.lo).Nonempty := by
    simp only [edgesOver_nonempty_iff, mem_byBegin]
  constructor
  · intro h
    exact ⟨h.proper, hcov.1 h.covered, fun p q hp hq => edgesOver_byBegin_iff.1 (h.uniform p q hp hq)⟩
  · intro h
    exact ⟨h.proper, hcov.2 h.covered, fun p q hp hq => edgesOver_byBegin_iff.2 (h.uniform p q hp hq)⟩

/-- Ranges that cover what the edges cover, and none of which crosses the begin or the end of an edge. -/
structure Resolves (es : List Edge) (rs : List Range) : Prop where
  covers : ∀ e ∈ es, ∀ p, e.Covers p → ∃ r ∈ rs, r.Covers p
  uniform : ∀ r ∈ rs, ∀ p q, r.Covers p → r.Covers q → edgesOver es p = edgesOver es q

variable (hprop : AllProper es)

include hprop

theorem maximalRun_of_mem_ofEdges {r : Region} (hr : r ∈ ofEdges es) : MaximalRun es r.toRange := by
  have h := maximalRun_sweep _ (ascending_byBegin es) hprop.byBegin r hr
  exact ⟨run_byBegin_iff.1 h.toRun, fun r' h' => h.maximal r' (run_byBegin_iff.2 h')⟩

/-- A maximal run shares a code point with a region, so it is this region. -/
theorem exists_region_of_maximalRun {r : Range} (h : MaximalRun es r) :
    ∃ g ∈ ofEdges es, g.toRange = r := by
  obtain ⟨g, hg, hcov⟩ := (partition_ofEdges hprop).exists_covers_iff.2 (edgesOver_nonempty_iff.1 h.covered)
  exact ⟨g, hg, (maximalRun_of_mem_ofEdges hprop hg).eq_of_covers h hcov ⟨Int.le_refl _, h.proper⟩⟩

/-- No list of ranges that resolves the edges is shorter than the list of the regions. -/
theorem length_le_of_resolves {rs : List Range} (h : Resolves es rs) :
    (ofEdges es).length ≤ rs.length := by
  have hpart := partition_ofEdges hprop
  have hbegin : ∀ g ∈ ofEdges es, g.Covers g.lo := fun g hg => ⟨Int.le_refl _, hpart.proper g hg⟩
  have hcover : ∀ g : Region, ∃ r, g ∈ ofEdges es → r ∈ rs ∧ r.Covers g.lo := by
    intro g
    by_cases hg : g ∈ ofEdges es
    · obtain ⟨e, he, hcov⟩ := hpart.exists_edge hg
      obtain ⟨r, hr, hrcov⟩ := h.covers e he _ hcov
      exact ⟨r, fun _ => ⟨hr, hrcov⟩⟩
    · exact ⟨g.toRange, fun hg' => absurd hg' hg⟩
  choose f hf using hcover
  -- A range lies within one region, so two regions do not begin in the same range.
  have hinj : ∀ g ∈ ofEdges es, ∀ g' ∈ ofEdges es, f g = f g' → g = g' := by
    intro g hg g' hg' heq
    obtain ⟨hmem, hcov⟩ := hf g hg
    have hcov' : (f g).Covers g'.lo := heq ▸ (hf g' hg').2
    -- Ranges that hold nothing resolve the edges as well, but this one holds a begin.
    have hrun : Run es (f g) := by
      have hlo : (f g).Covers (f g).lo := ⟨Int.le_refl _, Int.le_trans hcov.1 hcov.2⟩
      refine ⟨hlo.2, ?_, h.uniform _ hmem⟩
      rw [h.uniform _ hmem _ _ hlo hcov]
      exact (maximalRun_of_mem_ofEdges hprop hg).covered
    exact hpart.eq_of_covers hg hg'
      ((maximalRun_of_mem_ofEdges hprop hg).covers_of_run hrun (hbegin g hg) hcov hcov') (hbegin g' hg')
  have hnodup : (ofEdges es).Nodup := by
    refine hpart.ascending.imp_of_mem fun {a b} ha _ hlt heq => ?_
    have hproper : a.lo ≤ a.hi := hpart.proper a ha
    rw [← heq] at hlt
    omega
  calc
    (ofEdges es).length = ((ofEdges es).map f).length := (List.length_map _).symm
    _ ≤ rs.length := by
      refine (List.subperm_of_subset (hnodup.map_on hinj) fun r hr => ?_).length_le
      obtain ⟨g, hg, rfl⟩ := List.mem_map.1 hr
      exact (hf g hg).1

end Regions

/-- The regions of a list of proper edges are separate and ascend, and they are the maximal runs of code
points under the same edges, told apart by their positions in the list. So they cover what the edges cover,
the same edges lie over all code points of a region, different ones over regions that touch, and there is no
shorter list of ranges of this kind. The targets of a region are those of the edges over it, each one once,
in the order of the edges by their begin, where edges that begin together keep their order in the list. -/
theorem ofEdges_correct {es : List Edge} (hprop : AllProper es) :
    ((ofEdges es).Pairwise fun a b => a.hi < b.lo) ∧
    (∀ r, r ∈ (ofEdges es).map Region.toRange ↔ MaximalRun es r) ∧
    (∀ p, (∃ r ∈ ofEdges es, r.Covers p) ↔ ∃ e ∈ es, e.Covers p) ∧
    (∀ r ∈ ofEdges es, ∀ p q, r.Covers p → r.Covers q → edgesOver es p = edgesOver es q) ∧
    (∀ r ∈ ofEdges es, ∀ r' ∈ ofEdges es, r.hi + 1 = r'.lo → edgesOver es r.hi ≠ edgesOver es r'.lo) ∧
    (∀ rs, Resolves es rs → (ofEdges es).length ≤ rs.length) ∧
    ∃ sorted, StablySorted es sorted ∧
      ∀ r ∈ ofEdges es, ∀ p, r.Covers p → r.targets = targetsOver sorted p := by
  have hpart := partition_ofEdges hprop
  refine ⟨hpart.ascending, fun r => ⟨fun hr => ?_, fun hr => ?_⟩, fun p => hpart.exists_covers_iff,
    fun r hr => (maximalRun_of_mem_ofEdges hprop hr).uniform, fun r hr r' _ htouch => ?_,
    fun rs => length_le_of_resolves hprop, byBegin es, stablySorted_byBegin es, ?_⟩
  · obtain ⟨g, hg, rfl⟩ := List.mem_map.1 hr
    exact maximalRun_of_mem_ofEdges hprop hg
  · obtain ⟨g, hg, rfl⟩ := exists_region_of_maximalRun hprop hr
    exact List.mem_map_of_mem hg
  · rw [← htouch]
    exact (maximalRun_iff.1 (maximalRun_of_mem_ofEdges hprop hr)).2.2
  · exact targets_sweep _ (ascending_byBegin es) hprop.byBegin

/-- Edges that begin together, one of them twice, are cut where the next one begins. -/
def crossing : List Edge := [⟨⟨99, 100⟩, 3⟩, ⟨⟨97, 122⟩, 2⟩, ⟨⟨97, 122⟩, 1⟩, ⟨⟨97, 122⟩, 2⟩, ⟨⟨100, 102⟩, 1⟩]

/-- The regions of these edges, with the targets in the order of the begins, and no other maximal runs. -/
theorem ofEdges_correct_crossing :
    AllProper crossing ∧
      ofEdges crossing = [⟨⟨97, 98⟩, [2, 1]⟩, ⟨⟨99, 99⟩, [2, 1, 3]⟩, ⟨⟨100, 100⟩, [2, 1, 3]⟩,
        ⟨⟨101, 102⟩, [2, 1]⟩, ⟨⟨103, 122⟩, [2, 1]⟩] ∧
      (∀ r, MaximalRun crossing r ↔ r ∈ [⟨97, 98⟩, ⟨99, 99⟩, ⟨100, 100⟩, ⟨101, 102⟩, ⟨103, 122⟩]) := by
  have hprop : AllProper crossing := by
    unfold AllProper
    decide
  have hregions : ofEdges crossing = [⟨⟨97, 98⟩, [2, 1]⟩, ⟨⟨99, 99⟩, [2, 1, 3]⟩, ⟨⟨100, 100⟩, [2, 1, 3]⟩,
      ⟨⟨101, 102⟩, [2, 1]⟩, ⟨⟨103, 122⟩, [2, 1]⟩] := by
    simp [ofEdges, crossing, List.mergeSort, List.MergeSort.Internal.splitInTwo, sweep, remainder, stop, leastEnd,
      beyond?, Int.min_def, List.eraseDups_cons]
  refine ⟨hprop, hregions, fun r => ?_⟩
  have h := (ofEdges_correct hprop).2.1 r
  rw [hregions] at h
  exact h.symm

end Region

end MaximalMunch
