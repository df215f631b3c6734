import Mathlib.Data.List.Induction
import MaximalMunch.Proofs.OverlapRegion
import MaximalMunch.Region.InPlace

/-!
# The sweep in place

The sweep that rewrites one list makes the regions of the sweep that builds new ones. What lies before its
index is done; from the index on stand the edges that are left. So every index is that of an edge, every
range that is made anew holds a code point, and there are fewer rounds than begins and ends of edges.

- `InPlace.cut_append`, `InPlace.extent_append` : the two inner loops
- `InPlace.round_append`   : a round makes the first region and leaves what is behind it
- `InPlace.rounds_sweep`   : all rounds, by induction on the regions
- `Region.length_sweep_le` : the number of regions
- `InPlace.rounds_ofEdges_iff` : the sweep in place ends, without a fault, with the regions of its edges
-/

namespace MaximalMunch

namespace Region

/-! ## The regions one by one -/

/-- The region that a sweep makes first. -/
def firstRegion (e : Edge) (es : List Edge) : Region where
  lo := e.lo
  hi := firstStop e es
  targets := ((e :: sameBegin e es).map Edge.target).eraseDups

/-- Each region is the last one under some edge, or another edge has begun that waited before. -/
theorem length_sweep_le (es : List Edge) : (sweep es).length ≤ es.length + waiting es := by
  fun_induction sweep es with
  | case1 =>
      exact Nat.zero_le _
  | case2 e es same later ih =>
      have hstep := remainder_progress e same later
      have hlen : same.length + later.length = es.length := by
        rw [← List.length_append, List.takeWhile_append_dropWhile]
      have hwait : waiting (e :: es) = later.length := rfl
      simp only [List.length_cons] at hstep ⊢
      omega

theorem length_ofEdges_le (es : List Edge) : (ofEdges es).length ≤ 2 * es.length - 1 := by
  have hle : (ofEdges es).length ≤ (byBegin es).length + waiting (byBegin es) := length_sweep_le _
  have hlen : (byBegin es).length = es.length := List.length_mergeSort es
  by_cases hnil : byBegin es = []
  · rw [hnil] at hle hlen
    simp only [waiting, List.length_nil] at hle hlen
    omega
  · have := waiting_lt_length hnil
    omega

namespace InPlace

/-! ## Access behind what is done -/

section Access

variable (pre rest : List Edge) (e : Edge)

theorem get_append : get (pre ++ e :: rest) pre.length = .ok e := by
  simp [get]

theorem set_append (o : Edge) : set (pre ++ e :: rest) pre.length o = .ok (pre ++ o :: rest) := by
  simp [set]

theorem erase_append : erase (pre ++ e :: rest) pre.length = .ok (pre ++ rest) := by
  simp [erase, List.eraseIdx_append_of_length_le]

theorem slice_append (front : List Edge) :
    slice (pre ++ front ++ rest) pre.length (pre.length + front.length) = .ok front := by
  have hle : pre.length ≤ pre.length + front.length ∧
      pre.length + front.length ≤ (pre ++ front ++ rest).length := by
    simp only [List.length_append]
    omega
  rw [slice, if_pos hle, ← List.length_append, List.take_left, List.drop_left]

theorem rebuild_eq_ok {lo : Int} (h : lo ≤ e.hi) : rebuild e lo = .ok { e with lo } := if_pos h

end Access

/-! ## The inner loops -/

theorem trim_append (stop : Int) (pre rest : List Edge) (e : Edge) :
    trim stop (pre ++ e :: rest) pre.length = .ok (pre ++ (beyond? stop e).toList ++ rest) := by
  unfold trim beyond?
  rw [get_append]
  simp only [bind, Except.bind]
  by_cases hend : e.hi ≤ stop
  · simp only [hend, if_true, erase_append, Option.toList_none, List.append_nil]
  · rw [if_neg hend, if_neg hend, rebuild_eq_ok e (by omega)]
    simp only [set_append, Option.toList_some, List.append_assoc, List.singleton_append]

/-- The edges in front are trimmed from the last one to the first. -/
theorem cut_append (stop : Int) (pre front rest : List Edge) :
    cut stop pre.length front.length (pre ++ front ++ rest) =
      .ok (pre ++ front.filterMap (beyond? stop) ++ rest) := by
  -- An edge that is removed moves only edges that have been trimmed.
  induction front using List.reverseRecOn generalizing rest with
  | nil =>
      simp [cut, pure, Except.pure]
  | append_singleton front e ih =>
      have htrim := trim_append stop (pre ++ front) rest e
      have hstep := ih ((beyond? stop e).toList ++ rest)
      rw [List.length_append] at htrim
      rw [List.length_append, List.length_singleton, cut, List.append_assoc, List.append_assoc,
        List.singleton_append, ← List.append_assoc, htrim]
      simp only [bind, Except.bind, List.append_assoc] at hstep ⊢
      rw [hstep, List.filterMap_append]
      cases hb : beyond? stop e <;> simp [hb]

/-- The edges that begin at `lo` are passed, up to the first one that does not. -/
theorem extent_append {lo : Int} (pre : List Edge) {same rest : List Edge} (hsame : ∀ e ∈ same, e.lo = lo)
    (hrest : ∀ e ∈ rest.head?, e.lo ≠ lo) (lowest : Int) :
    extent (pre ++ same ++ rest) lo pre.length lowest =
      .ok (pre.length + same.length, same.foldl (fun m e => min m e.hi) lowest) := by
  induction same generalizing pre lowest with
  | nil =>
      rw [extent]
      cases rest with
      | nil =>
          simp
      | cons l rest =>
          have hne : ¬ l.lo = lo := hrest l rfl
          have hlt : pre.length < (pre ++ [] ++ l :: rest).length := by simp
          rw [if_pos hlt, List.append_nil, get_append]
          simp [hne]
  | cons e same ih =>
      have hlo : e.lo = lo := hsame e (by simp)
      have hlt : pre.length < (pre ++ e :: same ++ rest).length := by simp
      have hstep := ih (pre ++ [e]) (fun o ho => hsame o (by simp [ho])) (min lowest e.hi)
      rw [extent, if_pos hlt]
      simp only [List.append_assoc, List.cons_append, List.nil_append, List.length_append,
        List.length_singleton] at hstep ⊢
      simp only [get_append, hlo, if_true]
      rw [hstep, List.length_cons, List.foldl_cons, Nat.add_assoc, Nat.add_comm 1]

/-- A region also ends where the next edge begins. -/
theorem stopBefore_append (e : Edge) (pre same later : List Edge) :
    stopBefore (pre ++ later) pre.length (leastEnd e same) = .ok (stop e same later) := by
  unfold stopBefore
  cases later with
  | nil =>
      simp [stop, pure, Except.pure]
  | cons l later =>
      have hlt : pre.length < (pre ++ l :: later).length := by simp
      rw [if_pos hlt, get_append]
      rfl

/-! ## One round -/

section Round

variable (pre : List Edge) {e : Edge} {es : List Edge}

/-- Edges that begin together. -/
theorem together_append :
    together e (pre ++ e :: es) pre.length =
      .ok (firstRegion e es, pre ++ behind e es, pre.length) := by
  have hsplit : pre ++ e :: es = pre ++ e :: sameBegin e es ++ laterBegin e es := by
    rw [List.append_assoc, List.cons_append, same_append_later]
  have hnext : ∀ l ∈ (laterBegin e es).head?, l.lo ≠ e.lo := by
    intro l hl
    have hhead := List.head?_dropWhile_not (fun o : Edge => o.lo == e.lo) es
    rw [← laterBegin, hl] at hhead
    simpa using hhead
  have hextent : extent (pre ++ e :: sameBegin e es ++ laterBegin e es) e.lo (pre.length + 1) e.hi =
      .ok (pre.length + (e :: sameBegin e es).length, leastEnd e (sameBegin e es)) := by
    have hsame : ∀ o ∈ sameBegin e es, o.lo = e.lo := fun o ho => lo_of_mem_same (List.mem_cons_of_mem _ ho)
    -- The loop starts behind `e` itself, with its end as the least one so far.
    have h := extent_append (pre ++ [e]) hsame hnext e.hi
    simp only [List.append_assoc, List.cons_append, List.nil_append, List.length_append,
      List.length_singleton] at h
    rw [List.append_assoc, List.cons_append, h, List.length_cons, Nat.add_assoc, Nat.add_comm 1, leastEnd]
  have hstop := stopBefore_append e (pre ++ e :: sameBegin e es) (sameBegin e es) (laterBegin e es)
  rw [List.length_append] at hstop
  rw [together, hsplit, hextent]
  simp only [bind, Except.bind, hstop, slice_append, Nat.add_sub_cancel_left, cut_append]
  rw [List.append_assoc]
  rfl

/-- An edge that begins before all others. -/
theorem alone (h : ∀ n ∈ es.head?, e.lo < n.lo) :
    firstRegion e es = ⟨⟨e.lo, stop e [] es⟩, [e.target]⟩ ∧
      behind e es = (beyond? (stop e [] es) e).toList ++ es := by
  have hsame : sameBegin e es = [] := by
    refine List.takeWhile_eq_nil_iff.2 fun hlt hbegin => ?_
    have := h es[0] (by rw [List.head?_eq_getElem?, List.getElem?_eq_getElem hlt]; rfl)
    have : es[0].lo = e.lo := by simpa using hbegin
    omega
  have hlater : laterBegin e es = es := by
    have happend := same_append_later e es
    rwa [hsame] at happend
  constructor
  · rw [firstRegion, firstStop, hsame, hlater]
    rfl
  · rw [behind, remainder, hsame, hlater]
    cases hb : beyond? (stop e [] es) e <;> simp [hb]

/-- A round that makes the region of a whole edge passes the edge. -/
theorem passed (h : ∀ n ∈ es.head?, e.lo < n.lo) (hstop : stop e [] es = e.hi) :
    ∃ done, (.ok (⟨⟨e.lo, e.hi⟩, [e.target]⟩, pre ++ e :: es, pre.length + 1) :
        Except Fault (Region × List Edge × Nat)) =
      .ok (firstRegion e es, done ++ behind e es, done.length) := by
  obtain ⟨hfirst, hbehind⟩ := alone h
  have hnone : beyond? e.hi e = none := if_pos (Int.le_refl _)
  refine ⟨pre ++ [e], ?_⟩
  rw [hfirst, hbehind, hstop, hnone]
  simp

/-- A round makes the first region, and leaves what is behind it from the index on. -/
theorem round_append (hasc : Ascending (e :: es)) (hprop : AllProper (e :: es)) :
    ∃ done, round (pre ++ e :: es) pre.length = .ok (firstRegion e es, done ++ behind e es, done.length) := by
  have hproper : e.lo ≤ e.hi := hprop e (by simp)
  unfold round
  simp only [get_append, bind, Except.bind, pure, Except.pure]
  cases es with
  | nil =>
      have hlast : ¬ pre.length + 1 < (pre ++ [e]).length := by simp
      rw [if_neg hlast]
      exact passed pre (by simp) rfl
  | cons n ns =>
      have hlt : pre.length + 1 < (pre ++ e :: n :: ns).length := by simp
      have hnext : get (pre ++ e :: n :: ns) (pre.length + 1) = .ok n := by
        have hget := get_append (pre ++ [e]) ns n
        rwa [List.length_append, List.append_assoc] at hget
      have hle : e.lo ≤ n.lo := (List.pairwise_cons.1 hasc).1 n (by simp)
      have hmin : stop e [] (n :: ns) = min e.hi (n.lo - 1) := rfl
      have hhead : e.lo < n.lo → ∀ l ∈ (n :: ns).head?, e.lo < l.lo := by
        rintro hlo l ⟨⟩
        exact hlo
      rw [if_pos hlt, hnext]
      simp only
      by_cases hbefore : e.hi < n.lo
      · -- The edge ends before the next one begins, so all of it is the region.
        rw [if_pos hbefore]
        exact passed pre (hhead (by omega)) (by omega)
      · rw [if_neg hbefore]
        by_cases hbegin : e.lo < n.lo
        · -- The edge goes on behind its first region, where the next one begins.
          have hstop : stop e [] (n :: ns) = n.lo - 1 := by omega
          obtain ⟨hfirst, hbehind⟩ := alone (hhead hbegin)
          have hrest : beyond? (n.lo - 1) e = some { e with lo := n.lo } := by
            rw [beyond?, if_neg (by omega), Int.sub_add_cancel]
          rw [if_pos hbegin, rebuild_eq_ok e (by omega)]
          simp only [set_append]
          rw [hfirst, hbehind, hstop, hrest]
          exact ⟨pre, rfl⟩
        · rw [if_neg hbegin, together_append]
          exact ⟨pre, rfl⟩

end Round

/-! ## All rounds -/

/-- The rounds of a sweep have one end. -/
theorem Rounds.unique {j k : Nat} {es : List Edge} {i : Nat} {x y : Except Fault (List Region)}
    (hx : Rounds j es i x) (hy : Rounds k es i y) : j = k ∧ x = y := by
  induction hx generalizing k y with
  | done hle =>
      cases hy with
      | done =>
          exact ⟨rfl, rfl⟩
      | fault hlt | round hlt =>
          exact absurd hlt (Nat.not_lt.2 hle)
  | fault hlt hround =>
      cases hy with
      | done hle =>
          exact absurd hlt (Nat.not_lt.2 hle)
      | fault _ hround' =>
          rw [hround] at hround'
          exact ⟨rfl, congrArg Except.error (Except.error.inj hround')⟩
      | round _ hround' =>
          rw [hround] at hround'
          exact absurd hround' (by simp)
  | round hlt hround _ ih =>
      cases hy with
      | done hle =>
          exact absurd hlt (Nat.not_lt.2 hle)
      | fault _ hround' =>
          rw [hround] at hround'
          exact absurd hround' (by simp)
      | round _ hround' hrest =>
          rw [hround] at hround'
          cases hround'
          obtain ⟨rfl, rfl⟩ := ih hrest
          exact ⟨rfl, rfl⟩

/-- Each round makes one region of the sweep, so both end together. -/
theorem rounds_sweep (es : List Edge) (hasc : Ascending es) (hprop : AllProper es) (done : List Edge) :
    Rounds (sweep es).length (done ++ es) done.length (.ok (sweep es)) := by
  fun_induction sweep es generalizing done with
  | case1 =>
      exact .done (by simp)
  | case2 e es same later ih =>
      obtain ⟨done', hround⟩ := round_append done hasc hprop
      have hlt : done.length < (done ++ e :: es).length := by simp
      exact .round hlt hround (ih (behind_ascending hasc) (behind_proper hprop) done')

end InPlace

open InPlace in
/-- The sweep in place over proper edges, by their begin, ends in one way: without a fault, so that every
index is that of an edge and every range that is made anew holds a code point. Each round makes one of the
regions, and each of these holds a code point, too. There are at most `2 * n - 1` rounds for `n` edges, and
none for no edges, however many code points lie under the edges. -/
theorem rounds_ofEdges_iff {es : List Edge} (hprop : AllProper es) :
    (∀ k x, Rounds k (byBegin es) 0 x ↔ k = (ofEdges es).length ∧ x = .ok (ofEdges es)) ∧
      (∀ r ∈ ofEdges es, r.lo ≤ r.hi) ∧ (ofEdges es).length ≤ 2 * es.length - 1 := by
  have hrounds : Rounds (ofEdges es).length (byBegin es) 0 (.ok (ofEdges es)) :=
    rounds_sweep (byBegin es) (ascending_byBegin es) hprop.byBegin []
  refine ⟨fun k x => ⟨fun h => h.unique hrounds, ?_⟩, (partition_ofEdges hprop).proper, length_ofEdges_le es⟩
  rintro ⟨rfl, rfl⟩
  exact hrounds

/-- Edges within each other, of which all begins and ends differ. -/
def nested : List Edge := [⟨⟨98, 121⟩, 2⟩, ⟨⟨97, 122⟩, 1⟩, ⟨⟨99, 120⟩, 3⟩]

open InPlace in
/-- Such edges need as many rounds as there can be. -/
theorem rounds_ofEdges_iff_nested :
    AllProper nested ∧ (ofEdges nested).length = 2 * nested.length - 1 ∧
      Rounds 5 (byBegin nested) 0 (.ok (ofEdges nested)) := by
  have hprop : AllProper nested := by
    unfold AllProper
    decide
  have hlen : (ofEdges nested).length = 5 := by
    simp [ofEdges, nested, List.mergeSort, List.MergeSort.Internal.splitInTwo, sweep, remainder, stop, leastEnd,
      beyond?, Int.min_def]
  exact ⟨hprop, hlen, ((rounds_ofEdges_iff hprop).1 5 _).2 ⟨hlen.symm, rfl⟩⟩

end Region

end MaximalMunch
