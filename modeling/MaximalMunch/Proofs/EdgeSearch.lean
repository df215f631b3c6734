import MaximalMunch.DFA.Basic

/-!
# Finding the edge over a code point

Among edges that ascend and do not overlap, the binary search finds the one edge over a code point.

- `DFA.Separate`                : edges with code points, each behind the end of the one before
- `DFA.State.searchBegin_spec`  : the search cuts the edges where they begin behind a code point
- `DFA.State.follow?_eq_some_iff`, `DFA.follow?_eq_some_iff` : following means to take an edge over the
  code point
- `DFA.run?`                    : the state that a word is followed to
-/

namespace MaximalMunch

namespace DFA

/-- Edges with at least one code point each, in ascending order and without overlaps. -/
structure Separate (es : List Edge) : Prop where
  proper : ∀ e ∈ es, e.Proper
  ascending : es.Pairwise fun a b => a.hi < b.lo

theorem Separate.nil : Separate [] := ⟨by simp, List.Pairwise.nil⟩

theorem Separate.tail {e : Edge} {es : List Edge} (h : Separate (e :: es)) : Separate es where
  proper := fun a ha => h.proper a (List.mem_cons_of_mem _ ha)
  ascending := (List.pairwise_cons.1 h.ascending).2

namespace State

variable {V : Type}

theorem searchBegin_spec (edges : Array Edge) (p : Int) (lo hi : Nat) (bound : hi ≤ edges.size)
    (hle : lo ≤ hi)
    (hasc : ∀ i j (_ : i < j) (hj : j < edges.size), edges[i].lo ≤ edges[j].lo)
    (hlo : ∀ i (hi : i < edges.size), i < lo → edges[i].lo ≤ p)
    (hhi : ∀ i (h : i < edges.size), hi ≤ i → p < edges[i].lo) :
    searchBegin edges p lo hi bound ≤ edges.size ∧
      ∀ i (h : i < edges.size), edges[i].lo ≤ p ↔ i < searchBegin edges p lo hi bound := by
  -- What is before `lo` begins in time, and what is from `hi` on begins too late.
  fun_induction searchBegin edges p lo hi bound with
  | case1 lo hi bound h mid hmid hmidle ih =>
      refine ih (by omega) hasc (fun i hi hlt => ?_) hhi
      by_cases hi' : i = mid
      · simpa [hi'] using hmidle
      · have := hasc i mid (by omega) hmid
        omega
  | case2 lo hi bound h mid hmid hmidle ih =>
      refine ih (by omega) hasc hlo (fun i hi hge => ?_)
      by_cases hi' : i = mid
      · simp only [hi']
        omega
      · have := hasc mid i (by omega) hi
        omega
  | case3 lo hi bound h =>
      have : lo = hi := by omega
      subst this
      refine ⟨bound, fun i hi => ⟨fun hp => ?_, fun hlt => hlo i hi hlt⟩⟩
      by_cases hlt : i < lo
      · exact hlt
      · have := hhi i hi (by omega)
        omega

/-- The state that is followed to is the target of the edge over the code point. -/
theorem follow?_eq_some_iff {s : State V} (hs : Separate s.edges.toList) {p : Int} {t : Nat} :
    s.follow? p = some t ↔ ∃ e ∈ s.edges.toList, e.Covers p ∧ e.target = t := by
  have hsep : ∀ i j (_ : i < j) (hj : j < s.edges.size), s.edges[i].hi < s.edges[j].lo := by
    intro i j hij hj
    exact List.pairwise_iff_getElem.1 hs.ascending i j (by simp; omega) (by simpa using hj) hij
  have hproper : ∀ i (hi : i < s.edges.size), s.edges[i].lo ≤ s.edges[i].hi :=
    fun i hi => hs.proper _ (by simp)
  have hasc : ∀ i j (_ : i < j) (hj : j < s.edges.size), s.edges[i].lo ≤ s.edges[j].lo := by
    intro i j hij hj
    have := hsep i j hij hj
    have := hproper i (by omega)
    omega
  have hspec := searchBegin_spec s.edges p 0 s.edges.size (Nat.le_refl _) (Nat.zero_le _) hasc
    (fun i _ hi => absurd hi (by omega)) (fun i h hi => absurd h (by omega))
  have hindex : (∃ e ∈ s.edges.toList, e.Covers p ∧ e.target = t) ↔
      ∃ i, ∃ hi : i < s.edges.size, s.edges[i].Covers p ∧ s.edges[i].target = t := by
    constructor
    · rintro ⟨e, he, hp, ht⟩
      rcases List.getElem_of_mem he with ⟨i, hi, rfl⟩
      exact ⟨i, by simpa using hi, by simpa using hp, by simpa using ht⟩
    · rintro ⟨i, hi, hp, ht⟩
      exact ⟨s.edges[i], by simp, hp, ht⟩
  rw [hindex]
  unfold follow?
  split
  · -- All edges begin behind the code point.
    rename_i hk
    rw [hk] at hspec
    constructor
    · intro h
      exact absurd h (by simp)
    · rintro ⟨i, hi, hp, -⟩
      exact absurd ((hspec.2 i hi).1 hp.1) (by omega)
  · -- Only the last edge that begins in time can reach the code point.
    rename_i k hk
    rw [hk] at hspec
    have hlt : k < s.edges.size := by omega
    rw [Array.getElem?_eq_getElem hlt]
    have hbegin : s.edges[k].lo ≤ p := (hspec.2 k hlt).2 (by omega)
    constructor
    · intro h
      by_cases hp : s.edges[k].Covers p
      · exact ⟨k, hlt, hp, by simpa [hp] using h⟩
      · simp [hp] at h
    · rintro ⟨i, hi, hp, ht⟩
      have hik : i < k + 1 := (hspec.2 i hi).1 hp.1
      have hi_eq : i = k := by
        by_cases hne : i = k
        · exact hne
        · -- An edge before the last one that begins in time has ended.
          have := hsep i k (by omega) hlt
          have := hp.2
          omega
      subst hi_eq
      simp [hp, ht]

end State

variable {V : Type}

theorem follow?_eq_some_iff {d : DFA V} {q : Nat} (hq : Separate (d.edges q)) {p : Int} {t : Nat} :
    d.follow? q p = some t ↔ ∃ e ∈ d.edges q, e.Covers p ∧ e.target = t := by
  unfold follow? edges at *
  cases hs : d.states[q]? with
  | none =>
      simp
  | some s =>
      rw [hs] at hq
      exact State.follow?_eq_some_iff hq

/-! ## Following a word -/

/-- Follow a word, if there is an edge for each of its code points. -/
def run? (d : DFA V) (q : Nat) (w : List Int) : Option Nat := w.foldlM d.follow? q

@[simp] theorem run?_nil (d : DFA V) (q : Nat) : d.run? q [] = some q := rfl

theorem run?_append (d : DFA V) (q : Nat) (v w : List Int) :
    d.run? q (v ++ w) = (d.run? q v).bind fun t => d.run? t w := by
  simp only [run?, List.foldlM_append]
  rfl

theorem run?_snoc (d : DFA V) (q : Nat) (w : List Int) (p : Int) :
    d.run? q (w ++ [p]) = (d.run? q w).bind fun t => d.follow? t p := by
  rw [run?_append]
  simp [run?]

end DFA

end MaximalMunch
