import MaximalMunch.Proofs.OverlapRegion
import MaximalMunch.Proofs.SilentClosure

/-!
# Configurations

The states that a word leads to, as the ascending list that stands for them. The silent closure of a
region's targets lists the states that one more code point leads to.

- `NFA.Configuration`      : the list of the states that a word leads to
- `Configuration.snoc`     : what an overlap region does to it
- `NFA.Carries`            : a word leads to a state with a value
-/

namespace MaximalMunch

namespace NFA

variable {V : Type}

/-- The list `c` names the states that the word leads to, in ascending order. -/
structure Configuration (n : NFA V) (start : Nat) (w : List Int) (c : List Nat) : Prop where
  ascending : c.Pairwise (· < ·)
  mem_iff : ∀ q, q ∈ c ↔ Path n.Step start w q

/-- The word leads to a state with the value. -/
def Carries (n : NFA V) (start : Nat) (w : List Int) (v : V) : Prop :=
  ∃ q, Path n.Step start w q ∧ n.value? q = some v

namespace Configuration

variable {n : NFA V} {start : Nat} {w : List Int} {c : List Nat}

theorem ne_nil_iff (h : n.Configuration start w c) : c ≠ [] ↔ ∃ q, Path n.Step start w q := by
  constructor
  · intro hne
    rcases List.exists_mem_of_ne_nil c hne with ⟨q, hq⟩
    exact ⟨q, (h.mem_iff q).1 hq⟩
  · rintro ⟨q, hq⟩
    exact List.ne_nil_of_mem ((h.mem_iff q).2 hq)

theorem mem_valuesOf_iff (h : n.Configuration start w c) {v : V} :
    v ∈ n.valuesOf c ↔ n.Carries start w v := by
  simp only [valuesOf, List.mem_filterMap, Carries, h.mem_iff]

theorem mem_edgesOf_iff (h : n.Configuration start w c) {e : Edge} :
    e ∈ n.edgesOf c ↔ ∃ q, Path n.Step start w q ∧ e ∈ n.edges q := by
  simp only [edgesOf, List.mem_flatMap, h.mem_iff]

/-- The closure of some states is the configuration of a word if these are the states behind its last
step. -/
theorem of_closure (hn : n.WellFormed) {qs : List Nat}
    (h : ∀ q, Path n.Step start w q ↔ ∃ s ∈ qs, s < n.size ∧ Path n.Step s [] q) :
    n.Configuration start w (n.closure qs) where
  ascending := closure_ascending n qs
  mem_iff := by
    intro q
    rw [mem_closure_iff hn, h q]
    simp only [silentReach_iff_path]

theorem nil (hn : n.WellFormed) (hs : start < n.size) :
    n.Configuration start [] (n.closure [start]) := by
  refine of_closure hn fun q => ?_
  constructor
  · intro h
    exact ⟨start, by simp, hs, h⟩
  · rintro ⟨s, hs, -, h⟩
    obtain rfl : s = start := by simpa using hs
    exact h

/-- The regions of the edges of some states do not overlap, and they cover what the edges cover. -/
theorem partition (hn : n.WellFormed) (c : List Nat) :
    Region.Partition (n.edgesOf c) (Region.ofEdges (n.edgesOf c)) := by
  refine Region.partition_ofEdges fun e he => ?_
  rcases List.mem_flatMap.1 he with ⟨q, -, hq⟩
  exact hn.edge_proper q e hq

/-- One more code point leads to the closure of the targets of its region. -/
theorem snoc (hn : n.WellFormed) (h : n.Configuration start w c) {r : Region}
    (hr : r ∈ Region.ofEdges (n.edgesOf c)) {p : Int} (hp : r.Covers p) :
    n.Configuration start (w ++ [p]) (n.closure r.targets) := by
  have hpart := partition hn c
  refine of_closure hn fun q => ?_
  rw [Path.snoc_iff]
  constructor
  · rintro ⟨a, b, ha, hstep, hq⟩
    cases hstep with
    | edge he hcov =>
        refine ⟨_, (hpart.mem_targets_iff hr hp).2 ⟨_, ?_, hcov, rfl⟩, hn.edge_target _ _ he, hq⟩
        exact h.mem_edgesOf_iff.2 ⟨a, ha, he⟩
  · rintro ⟨b, hb, -, hq⟩
    rcases (hpart.mem_targets_iff hr hp).1 hb with ⟨e, he, hcov, rfl⟩
    rcases h.mem_edgesOf_iff.1 he with ⟨a, ha, hmem⟩
    exact ⟨a, e.target, ha, .edge hmem hcov, hq⟩

/-- A word leads on over a code point if a region of its configuration covers it. -/
theorem exists_snoc_iff (hn : n.WellFormed) (h : n.Configuration start w c) {p : Int} :
    (∃ q, Path n.Step start (w ++ [p]) q) ↔ ∃ r ∈ Region.ofEdges (n.edgesOf c), r.Covers p := by
  rw [(partition hn c).exists_covers_iff]
  constructor
  · rintro ⟨q, hq⟩
    rcases Path.snoc_iff.1 hq with ⟨a, b, ha, hstep, -⟩
    cases hstep with
    | edge he hcov =>
        exact ⟨_, h.mem_edgesOf_iff.2 ⟨a, ha, he⟩, hcov⟩
  · rintro ⟨e, he, hcov⟩
    rcases h.mem_edgesOf_iff.1 he with ⟨a, ha, hmem⟩
    exact ⟨e.target, Path.snoc_iff.2 ⟨a, e.target, ha, .edge hmem hcov, Path.nil _⟩⟩

end Configuration

end NFA

end MaximalMunch
