import MaximalMunch.Proofs.Alphabet

/-!
# Complements of ranges

The complement of a list of ranges covers the code points of the alphabet that no range of the list covers.

- `Range.WithinGreatest`           : ranges with code points, none of them above the alphabet
- `Range.covers_gaps_iff`          : for ranges that ascend by their first code points
- `Range.union_complement_iff`     : for ranges in any order, which may begin below the alphabet
- `Range.covers_complement_iff`    : for ranges of the alphabet
-/

namespace MaximalMunch

namespace Range

open CodePoint

/-- Some range of the list covers the code point. -/
def Union (rs : List Range) (p : Int) : Prop := ∃ r ∈ rs, r.Covers p

variable {r : Range} {rs : List Range} {p next : Int}

theorem union_nil : ¬ Union [] p := by
  simp [Union]

theorem union_cons_iff : Union (r :: rs) p ↔ r.Covers p ∨ Union rs p := by
  simp [Union]

/-- Ranges that ascend by their first code points. -/
def Ascending (rs : List Range) : Prop := rs.Pairwise fun a b => a.lo ≤ b.lo

/-- Each range has at least one code point, and none above the alphabet. -/
def WithinGreatest (rs : List Range) : Prop := ∀ r ∈ rs, r.lo ≤ r.hi ∧ r.hi ≤ greatest

theorem WithinGreatest.of_inAlphabet (h : ∀ r ∈ rs, r.InAlphabet) : WithinGreatest rs :=
  fun r hr => ⟨(h r hr).proper, (h r hr).hi_le⟩

/-- The gaps cover what the ranges leave out, from `next` on. -/
theorem covers_gaps_iff (hrs : WithinGreatest rs) (hasc : Ascending rs) :
    Union (gaps next rs) p ↔ next ≤ p ∧ p ≤ greatest ∧ ¬ Union rs p := by
  induction rs generalizing next with
  | nil =>
      rw [gaps]
      split
      · simp [Union, Covers]
      · simp only [union_nil, not_false_eq_true, and_true, false_iff]
        omega
  | cons r rs ih =>
      obtain ⟨hproper, hhi⟩ := hrs r (by simp)
      rcases List.pairwise_cons.1 hasc with ⟨hfirst, hrest⟩
      have hih : Union (gaps (max next (r.hi + 1)) rs) p ↔
          max next (r.hi + 1) ≤ p ∧ p ≤ greatest ∧ ¬ Union rs p :=
        ih (fun s hs => hrs s (List.mem_cons_of_mem _ hs)) hrest
      -- Before the first range there is no other one.
      have hbefore : p < r.lo → ¬ Union rs p := by
        rintro hlt ⟨s, hs, hcovers⟩
        have := hfirst s hs
        have := hcovers.1
        omega
      rw [gaps, union_cons_iff]
      split
      · rw [union_cons_iff, hih]
        simp only [Covers, Int.max_le]
        by_cases hu : Union rs p
        · have hle : ¬ p < r.lo := fun hlt => hbefore hlt hu
          simp only [hu, not_true_eq_false, and_false, or_false, or_true, iff_false]
          omega
        · simp only [hu, not_false_eq_true, and_true, or_false]
          omega
      · rw [hih]
        simp only [Covers, Int.max_le]
        by_cases hu : Union rs p
        · simp only [hu, not_true_eq_false, and_false, or_true]
        · simp only [hu, not_false_eq_true, and_true, or_false]
          omega

/-- The order in which gaps are looked for. -/
def byBegin (rs : List Range) : List Range := rs.mergeSort fun a b => decide (a.lo ≤ b.lo)

theorem mem_byBegin : r ∈ byBegin rs ↔ r ∈ rs := List.mem_mergeSort

theorem ascending_byBegin (rs : List Range) : Ascending (byBegin rs) := by
  refine (List.pairwise_mergeSort ?_ ?_ rs).imp of_decide_eq_true
  · intro a b c hab hbc
    simp only [decide_eq_true_eq] at hab hbc ⊢
    exact Int.le_trans hab hbc
  · intro a b
    simp only [Bool.or_eq_true, decide_eq_true_eq]
    exact Int.le_total _ _

theorem complement_eq_gaps (rs : List Range) : complement rs = gaps 0 (byBegin rs) := rfl

/-- The complement covers the code points of the alphabet that the list leaves out. Ranges of the list may
begin below the alphabet. -/
theorem union_complement_iff (hrs : WithinGreatest rs) :
    Union (complement rs) p ↔ 0 ≤ p ∧ p ≤ greatest ∧ ¬ Union rs p := by
  have hsorted : WithinGreatest (byBegin rs) := fun r hr => hrs r (mem_byBegin.1 hr)
  rw [complement_eq_gaps, covers_gaps_iff hsorted (ascending_byBegin rs)]
  simp only [Union, mem_byBegin]

theorem covers_complement_iff (hrs : ∀ r ∈ rs, r.InAlphabet) :
    Union (complement rs) p ↔ 0 ≤ p ∧ p ≤ greatest ∧ ¬ Union rs p :=
  union_complement_iff (.of_inAlphabet hrs)

end Range

end MaximalMunch
