import MaximalMunch.Proofs.Complement

/-!
# Complements are canonical

A complement lists ranges of the alphabet in ascending order, and there is a code point between each two of
them. No other list of this kind covers the same code points, so a complement depends on what a list covers
alone, and not on how its ranges are cut, repeated or ordered.

- `Range.Canonical`             : ascending ranges of the alphabet that neither overlap nor touch
- `Range.canonical_gaps`        : the gaps between ranges are of this kind
- `Range.Canonical.unique`      : code points are covered by one such list
- `Range.complement_canonical`  : what a complement is, and what two of them are
-/

namespace MaximalMunch

namespace Range

open CodePoint

/-- Ranges of the alphabet in ascending order, with at least one code point between each two of them. -/
structure Canonical (rs : List Range) : Prop where
  inAlphabet : ∀ r ∈ rs, r.InAlphabet
  apart : rs.Pairwise fun a b => a.hi + 1 < b.lo

variable {r r' : Range} {rs rs' : List Range} {p next : Int}

namespace Canonical

theorem nil : Canonical [] := ⟨by simp, List.Pairwise.nil⟩

/-- A range in front of all others, with a code point before the first of them. -/
theorem cons (h : Canonical rs) (hr : r.InAlphabet) (hfront : ∀ s ∈ rs, r.hi + 1 < s.lo) :
    Canonical (r :: rs) where
  inAlphabet := List.forall_mem_cons.2 ⟨hr, h.inAlphabet⟩
  apart := List.pairwise_cons.2 ⟨hfront, h.apart⟩

theorem tail (h : Canonical (r :: rs)) : Canonical rs where
  inAlphabet := fun s hs => h.inAlphabet s (List.mem_cons_of_mem _ hs)
  apart := (List.pairwise_cons.1 h.apart).2

/-! ## One list for each set of code points -/

theorem union_lo (h : Canonical (r :: rs)) : Union (r :: rs) r.lo :=
  union_cons_iff.2 (Or.inl ⟨Int.le_refl _, (h.inAlphabet r (by simp)).proper⟩)

/-- What the ranges behind the first one cover lies behind the code point that follows it. -/
theorem lt_of_union_tail (h : Canonical (r :: rs)) (hp : Union rs p) : r.hi + 1 < p := by
  obtain ⟨s, hs, hcov⟩ := hp
  exact Int.lt_of_lt_of_le ((List.pairwise_cons.1 h.apart).1 s hs) hcov.1

theorem union_tail_iff (h : Canonical (r :: rs)) : Union rs p ↔ r.hi < p ∧ Union (r :: rs) p := by
  rw [union_cons_iff]
  constructor
  · intro hp
    have := h.lt_of_union_tail hp
    exact ⟨by omega, Or.inr hp⟩
  · rintro ⟨hlt, hcov | hp⟩
    · exact absurd hcov.2 (by omega)
    · exact hp

/-- The first range begins with the first code point that is covered. -/
theorem lo_le (h : Canonical (r :: rs)) (hp : Union (r :: rs) p) : r.lo ≤ p := by
  rcases union_cons_iff.1 hp with hcov | hp
  · exact hcov.1
  · have := (h.inAlphabet r (by simp)).proper
    have := h.lt_of_union_tail hp
    omega

/-- The code point behind the first range is not covered, so no range that begins with it is longer. -/
theorem hi_le_of_union (h : Canonical (r :: rs)) (hlo : r'.lo = r.lo)
    (hcov : ∀ p, Union (r' :: rs') p → Union (r :: rs) p) : r'.hi ≤ r.hi := by
  have hproper := (h.inAlphabet r (by simp)).proper
  by_contra hlt
  have hnext : Union (r' :: rs') (r.hi + 1) := union_cons_iff.2 (Or.inl ⟨by omega, by omega⟩)
  rcases union_cons_iff.1 (hcov _ hnext) with hc | hu
  · have := hc.2
    omega
  · exact absurd (h.lt_of_union_tail hu) (Int.lt_irrefl _)

/-- Code points are covered by one canonical list. -/
theorem unique (h : Canonical rs) (h' : Canonical rs') (hcov : ∀ p, Union rs p ↔ Union rs' p) :
    rs = rs' := by
  induction rs generalizing rs' with
  | nil =>
      cases rs' with
      | nil =>
          rfl
      | cons r' rs' =>
          exact absurd ((hcov _).2 h'.union_lo) union_nil
  | cons r rs ih =>
      cases rs' with
      | nil =>
          exact absurd ((hcov _).1 h.union_lo) union_nil
      | cons r' rs' =>
          have hlo : r.lo = r'.lo :=
            Int.le_antisymm (h.lo_le ((hcov _).2 h'.union_lo)) (h'.lo_le ((hcov _).1 h.union_lo))
          have hhi : r.hi = r'.hi :=
            Int.le_antisymm (h'.hi_le_of_union hlo fun p => (hcov p).1)
              (h.hi_le_of_union hlo.symm fun p => (hcov p).2)
          obtain rfl : r = r' := by
            cases r
            cases r'
            exact congrArg₂ Range.mk hlo hhi
          rw [ih h.tail h'.tail fun p => by rw [h.union_tail_iff, h'.union_tail_iff, hcov p]]

end Canonical

/-! ## Complements -/

/-- No gap begins before the code points that are accounted for. -/
theorem le_lo_of_mem_gaps : ∀ g ∈ gaps next rs, next ≤ g.lo := by
  induction rs generalizing next with
  | nil =>
      intro g hg
      rw [gaps] at hg
      split at hg
      · obtain rfl : g = ⟨next, greatest⟩ := by simpa using hg
        exact Int.le_refl _
      · exact absurd hg (by simp)
  | cons r rs ih =>
      intro g hg
      rw [gaps] at hg
      split at hg
      · rcases List.mem_cons.1 hg with rfl | hg
        · exact Int.le_refl _
        · have := ih g hg
          omega
      · have := ih g hg
        omega

/-- Behind a gap there is a range, and so a code point before the next gap. -/
theorem canonical_gaps (hnext : 0 ≤ next) (hrs : WithinGreatest rs) : Canonical (gaps next rs) := by
  -- `next` never decreases, so every later gap begins behind the range at hand.
  induction rs generalizing next with
  | nil =>
      rw [gaps]
      split
      · rename_i hle
        exact Canonical.nil.cons ⟨hnext, hle, Int.le_refl _⟩ (by simp)
      · exact .nil
  | cons r rs ih =>
      obtain ⟨hproper, hhi⟩ := hrs r (by simp)
      have hrest : Canonical (gaps (max next (r.hi + 1)) rs) :=
        ih (by omega) fun s hs => hrs s (List.mem_cons_of_mem _ hs)
      rw [gaps]
      split
      · refine hrest.cons ⟨hnext, by simp only; omega, by simp only; omega⟩ fun s hs => ?_
        have := le_lo_of_mem_gaps s hs
        simp only
        omega
      · exact hrest

theorem canonical_complement (hrs : WithinGreatest rs) : Canonical (complement rs) :=
  canonical_gaps (Int.le_refl 0) fun r hr => hrs r (mem_byBegin.1 hr)

theorem withinGreatest_complement (hrs : WithinGreatest rs) : WithinGreatest (complement rs) :=
  .of_inAlphabet (canonical_complement hrs).inAlphabet

/-- What the complement of a complement covers. -/
theorem union_complement_complement_iff (hrs : WithinGreatest rs) :
    Union (complement (complement rs)) p ↔ 0 ≤ p ∧ Union rs p := by
  rw [union_complement_iff (withinGreatest_complement hrs), union_complement_iff hrs]
  have hle : Union rs p → p ≤ greatest := by
    rintro ⟨r, hr, hcov⟩
    exact Int.le_trans hcov.2 (hrs r hr).2
  constructor
  · rintro ⟨hlo, hhi, hnot⟩
    exact ⟨hlo, by_contra fun hp => hnot ⟨hlo, hhi, hp⟩⟩
  · rintro ⟨hlo, hp⟩
    exact ⟨hlo, hle hp, fun h => h.2.2 hp⟩

/-- Complements of any list of ranges that have code points, none of them above `0xFFFF`. A complement lists
ranges of code points from 0 to `0xFFFF` in ascending order that neither overlap nor touch, and they cover
just what the list leaves out. Lists that cover the same code points have one complement. The complement of
the complement covers what the list covers, but for code points below 0, which no list of characters has. -/
theorem complement_canonical (hrs : ∀ r ∈ rs, r.lo ≤ r.hi ∧ r.hi ≤ 0xFFFF) :
    (∀ r ∈ complement rs, 0 ≤ r.lo ∧ r.lo ≤ r.hi ∧ r.hi ≤ 0xFFFF) ∧
    (complement rs).Pairwise (fun a b => a.hi + 1 < b.lo) ∧
    (∀ p, (∃ r ∈ complement rs, r.Covers p) ↔ 0 ≤ p ∧ p ≤ 0xFFFF ∧ ¬ ∃ r ∈ rs, r.Covers p) ∧
    (∀ rs', (∀ r ∈ rs', r.lo ≤ r.hi ∧ r.hi ≤ 0xFFFF) →
      (∀ p, (∃ r ∈ rs, r.Covers p) ↔ ∃ r ∈ rs', r.Covers p) → complement rs = complement rs') ∧
    (∀ p, (∃ r ∈ complement (complement rs), r.Covers p) ↔ 0 ≤ p ∧ ∃ r ∈ rs, r.Covers p) ∧
    ((∀ r ∈ rs, 0 ≤ r.lo) →
      ∀ p, (∃ r ∈ complement (complement rs), r.Covers p) ↔ ∃ r ∈ rs, r.Covers p) := by
  have hwithin : WithinGreatest rs := hrs
  have hcanonical := canonical_complement hwithin
  refine ⟨fun r hr => ?_, hcanonical.apart, fun p => union_complement_iff hwithin, fun rs' hrs' hsame => ?_,
    fun p => union_complement_complement_iff hwithin, fun hlo p => ?_⟩
  · have h := hcanonical.inAlphabet r hr
    exact ⟨h.lo_nonneg, h.proper, h.hi_le⟩
  · refine hcanonical.unique (canonical_complement hrs') fun p => ?_
    rw [union_complement_iff hwithin, union_complement_iff hrs', show Union rs p ↔ Union rs' p from hsame p]
  · refine (union_complement_complement_iff hwithin).trans (and_iff_right_of_imp ?_)
    rintro ⟨r, hr, hcov⟩
    exact Int.le_trans (hlo r hr) hcov.1

/-- Ranges out of order, of which one overlaps, one is nested, one touches, one is repeated, and one reaches
the end of the alphabet: the complement is that of the three ranges that they make together. -/
theorem complement_canonical_mixed :
    let rs : List Range := [⟨0x6D, 0x70⟩, ⟨0x61, 0x63⟩, ⟨0xFFFF, 0xFFFF⟩, ⟨0x62, 0x65⟩, ⟨0x6E, 0x6F⟩,
      ⟨0x66, 0x66⟩, ⟨0x61, 0x63⟩]
    (∀ r ∈ rs, r.lo ≤ r.hi ∧ r.hi ≤ 0xFFFF) ∧
      complement rs = complement [⟨0x61, 0x66⟩, ⟨0x6D, 0x70⟩, ⟨0xFFFF, 0xFFFF⟩] ∧
      ∀ p, (∃ r ∈ complement (complement rs), r.Covers p) ↔ ∃ r ∈ rs, r.Covers p := by
  intro rs
  have hrs : ∀ r ∈ rs, r.lo ≤ r.hi ∧ r.hi ≤ 0xFFFF := by decide
  have h := complement_canonical hrs
  refine ⟨hrs, h.2.2.2.1 _ (by decide) fun p => ?_, h.2.2.2.2.2 (by decide)⟩
  simp only [rs, List.mem_cons, List.not_mem_nil, or_false, exists_eq_or_imp, exists_eq_left, Covers]
  omega

end Range

end MaximalMunch
