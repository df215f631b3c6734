import Mathlib.Data.List.Sort
import Mathlib.Data.Set.Operations
import MaximalMunch.Proofs.Discovery
import MaximalMunch.Proofs.Lockstep

/-!
# Automata that are deterministic already

Edges without common code points are their own overlap regions, and without silent edges a state is its own
closure. So the configurations of an automaton with such edges are its states, and the powerset construction
gives them new numbers and sorts their edges. An automaton that comes from the construction keeps its numbers,
as the construction goes over its states in lock step with the one that it comes from.

- `Region.ofEdges_of_apart`          : edges without common code points are not cut
- `NFA.Deterministic`                : no silent edges, and no code point under two edges of a state
- `Deterministic.exists_determinize` : there is no collision
- `Finished.exists_singleton`        : each configuration is a state
- `Finished.number`                  : its new number
- `DFA.toNFA`                        : a deterministic automaton as one that may be deterministic
- `Finished.correspond`              : its states correspond to the configurations that they stand for
- `NFA.determinize_renumbers`        : the construction renumbers, and what it answers is a fixed point
-/

namespace MaximalMunch

namespace Region

/-! ## Edges that are not cut -/

/-- The region under one edge alone. -/
def ofEdge (e : Edge) : Region := { e.toRange with targets := [e.target] }

/-- No code point lies under two edges. -/
def Apart (es : List Edge) : Prop := es.Pairwise fun a b => ∀ p, a.Covers p → ¬ b.Covers p

variable {es : List Edge}

/-- It is enough to compare ends and begins. -/
theorem apart_iff :
    Apart es ↔ es.Pairwise fun a b => a.hi < b.lo ∨ b.hi < a.lo ∨ ¬ a.Proper ∨ ¬ b.Proper := by
  have hiff : ∀ a b : Edge, (∀ p, a.Covers p → ¬ b.Covers p) ↔
      a.hi < b.lo ∨ b.hi < a.lo ∨ ¬ a.Proper ∨ ¬ b.Proper := by
    intro a b
    simp only [Range.Covers, Range.Proper]
    constructor
    · intro hab
      -- If neither edge ends before the other one begins, the greater begin lies under both.
      have := hab (max a.lo b.lo)
      omega
    · intro hends p ha hb
      omega
  simp only [Apart, hiff]

instance (es : List Edge) : Decidable (Apart es) := decidable_of_iff _ apart_iff.symm

theorem Apart.eq_of_covers (h : Apart es) {a b : Edge} (ha : a ∈ es) (hb : b ∈ es) {p : Int} (hap : a.Covers p)
    (hbp : b.Covers p) : a = b := by
  have hsep : es.Pairwise fun a b => a.Covers p → b.Covers p → a = b :=
    h.imp fun hab ha hb => absurd hb (hab p ha)
  have hflip : es.Pairwise (flip fun a b => a.Covers p → b.Covers p → a = b) :=
    hsep.imp fun hab hb ha => (hab ha hb).symm
  exact hsep.forall_of_forall_of_flip (fun _ _ _ _ => rfl) hflip ha hb hap hbp

/-- Sorted by their first code points, edges without common code points follow each other. -/
theorem Apart.separate_byBegin (h : Apart es) (hprop : AllProper es) : DFA.Separate (byBegin es) where
  proper := hprop.byBegin
  ascending := by
    have hsymm : ∀ {a b : Edge}, (∀ p, a.Covers p → ¬ b.Covers p) → ∀ p, b.Covers p → ¬ a.Covers p :=
      fun hab p hb ha => hab p ha hb
    have hapart : (byBegin es).Pairwise fun a b => ∀ p, a.Covers p → ¬ b.Covers p :=
      ((List.mergeSort_perm es _).pairwise_iff hsymm).2 h
    refine ((ascending_byBegin es).and hapart).imp_of_mem fun {a b} ha hb hab => ?_
    have hb' : b.lo ≤ b.hi := hprop.byBegin b hb
    -- Otherwise the first code point of the later edge lies under both.
    by_contra hover
    exact hab.2 b.lo ⟨hab.1, by omega⟩ ⟨Int.le_refl _, hb'⟩

theorem byBegin_of_separate (h : DFA.Separate es) : byBegin es = es := by
  refine List.mergeSort_of_pairwise (h.ascending.imp_of_mem fun {a b} ha hb hab => ?_)
  have ha' : a.lo ≤ a.hi := h.proper a ha
  exact decide_eq_true (by omega)

/-- The sweep takes each edge as it is if the next one begins behind it. -/
theorem sweep_of_separate (h : DFA.Separate es) : sweep es = es.map ofEdge := by
  induction es with
  | nil =>
      rw [sweep]
      rfl
  | cons e es ih =>
      have hasc := List.pairwise_cons.1 h.ascending
      have he : e.lo ≤ e.hi := h.proper e (by simp)
      have hrest := ih h.tail
      -- No edge begins with the first one, and none begins before it has ended.
      have hsame : (es.takeWhile fun o => o.lo == e.lo) = [] ∧ (es.dropWhile fun o => o.lo == e.lo) = es := by
        cases es with
        | nil =>
            exact ⟨rfl, rfl⟩
        | cons o os =>
            have ho := hasc.1 o (by simp)
            have hne : ¬ (o.lo == e.lo) = true := by simp; omega
            exact ⟨List.takeWhile_cons_of_neg hne, List.dropWhile_cons_of_neg hne⟩
      have hstop : stop e [] es = e.hi := by
        cases es with
        | nil =>
            rfl
        | cons o os =>
            have ho := hasc.1 o (by simp)
            simp only [stop, leastEnd, List.foldl_nil]
            omega
      have hbeyond : beyond? e.hi e = none := by simp [beyond?]
      have hremainder : remainder e [] es = es := by simp [remainder, hstop, hbeyond]
      rw [sweep]
      simp only [hsame.1, hsame.2, hstop, hremainder, hrest, List.map_cons, List.map_nil]
      rfl

theorem ofEdges_of_separate (h : DFA.Separate es) : ofEdges es = es.map ofEdge := by
  rw [ofEdges, ← byBegin, byBegin_of_separate h, sweep_of_separate h]

theorem ofEdges_of_apart (h : Apart es) (hprop : AllProper es) : ofEdges es = (byBegin es).map ofEdge :=
  sweep_of_separate (h.separate_byBegin hprop)

end Region

namespace NFA

/-! ## States as configurations -/

section Silent

variable {V : Type} {n : NFA V}

/-- Without silent edges a state is its own closure. -/
theorem closure_singleton (h : ∀ q, n.silent q = []) {q : Nat} (hq : q < n.size) : n.closure [q] = [q] := by
  have hinside : n.SilentInside := by
    intro s t ht
    rw [h s] at ht
    exact absurd ht (by simp)
  refine (closure_ascending n [q]).eq_of_mem_iff (List.pairwise_singleton _ q) fun t => ?_
  rw [mem_closure_iff_of_silentInside hinside]
  constructor
  · rintro ⟨s, hs, -, hreach⟩
    refine hreach.mem_of_closed (P := (· ∈ [q])) (fun s _ t ht => ?_) hs
    rw [h s] at ht
    exact absurd ht (by simp)
  · intro ht
    obtain rfl := List.mem_singleton.1 ht
    exact ⟨t, ht, hq, .refl t⟩

theorem edgesOf_singleton (n : NFA V) (q : Nat) : n.edgesOf [q] = n.edges q := by simp [edgesOf]

theorem valueOf?_singleton [DecidableEq V] (n : NFA V) (q : Nat) :
    Powerset.valueOf? (n.valuesOf [q]) = .ok (n.value? q) := by
  cases h : n.value? q with
  | none =>
      simp [valuesOf, h, Powerset.valueOf?]
  | some v =>
      simp [valuesOf, h, Powerset.valueOf?, List.eraseDups_cons]

end Silent

/-- The automaton is deterministic: it has no silent edges, and no code point lies under two edges of a
state. -/
structure Deterministic {V : Type} (n : NFA V) : Prop where
  silent_eq_nil : ∀ q, n.silent q = []
  apart : ∀ q, Region.Apart (n.edges q)

/-- It is enough to look at the states that are there. -/
theorem deterministic_iff {V : Type} {n : NFA V} :
    n.Deterministic ↔ ∀ q < n.size, n.silent q = [] ∧ Region.Apart (n.edges q) := by
  constructor
  · intro h q _
    exact ⟨h.silent_eq_nil q, h.apart q⟩
  · intro h
    have hall : ∀ q, n.silent q = [] ∧ Region.Apart (n.edges q) := by
      intro q
      by_cases hq : q < n.size
      · exact h q hq
      · rw [silent_eq_nil (Nat.not_lt.1 hq), edges_eq_nil (Nat.not_lt.1 hq)]
        exact ⟨rfl, List.Pairwise.nil⟩
    exact ⟨fun q => (hall q).1, fun q => (hall q).2⟩

instance {V : Type} (n : NFA V) : Decidable n.Deterministic := decidable_of_iff _ deterministic_iff.symm

namespace Deterministic

variable {V : Type} {n : NFA V} (h : n.Deterministic)

include h

theorem eq_of_path_nil {s t : Nat} (hpath : Path n.Step s [] t) : t = s := by
  cases silentReach_iff_path.2 hpath with
  | refl =>
      rfl
  | step hmem _ =>
      rw [h.silent_eq_nil] at hmem
      exact absurd hmem (by simp)

/-- A word leads to one state. -/
theorem path_unique {s t u : Nat} {w : List Int} (ht : Path n.Step s w t) (hu : Path n.Step s w u) : t = u := by
  induction w generalizing s with
  | nil =>
      rw [h.eq_of_path_nil ht, h.eq_of_path_nil hu]
  | cons p w ih =>
      obtain ⟨a, b, ha, hab, hb⟩ := ht.split_cons
      obtain ⟨c, d, hc, hcd, hd⟩ := hu.split_cons
      obtain rfl := h.eq_of_path_nil ha
      obtain rfl := h.eq_of_path_nil hc
      cases hab with
      | edge he hp =>
          cases hcd with
          | edge he' hp' =>
              obtain rfl := (h.apart c).eq_of_covers he he' hp hp'
              exact ih hb hd

variable (hn : n.WellFormed)

include hn

/-- The regions of a state are its edges. -/
theorem ofEdges_singleton (q : Nat) :
    Region.ofEdges (n.edgesOf [q]) = (Region.byBegin (n.edges q)).map Region.ofEdge := by
  rw [edgesOf_singleton]
  exact Region.ofEdges_of_apart (h.apart q) (hn.edge_proper q)

theorem closure_ofEdge {q : Nat} {e : Edge} (he : e ∈ n.edges q) :
    n.closure (Region.ofEdge e).targets = [e.target] :=
  closure_singleton h.silent_eq_nil (hn.edge_target q e he)

variable [DecidableEq V] {start : Nat} (hs : start < n.size)

include hs

/-- No word leads to two values, so there is no collision. -/
theorem exists_determinize : ∃ d, n.determinize start = .ok d := by
  refine NFA.exists_determinize hn hs fun w u v hu hv => ?_
  obtain ⟨q, hq, hqu⟩ := hu
  obtain ⟨r, hr, hrv⟩ := hv
  obtain rfl := h.path_unique hq hr
  exact Option.some.inj (hqu.symm.trans hrv)

end Deterministic

/-! ## New numbers -/

namespace Finished

variable {V : Type} [DecidableEq V] {n : NFA V} {start : Nat} {d : DFA V} {cs : List (List Nat)}
  {index : Std.HashMap (List Nat) Nat}

/-- The number of the configuration that holds one state alone. -/
def number (index : Std.HashMap (List Nat) Nat) (q : Nat) : Nat := (index[[q]]?).getD 0

variable (h : Finished n start d cs index) {q k : Nat}

include h

theorem number_eq (hk : cs[k]? = some [q]) : number index q = k := by
  rw [number, (h.tracks.index_iff [q] k).2 hk]
  rfl

theorem exists_path (hk : cs[k]? = some [q]) : ∃ w, Path n.Step start w q := by
  obtain ⟨w, hw⟩ := h.tracks.reached [q] (List.mem_of_getElem? hk)
  exact ⟨w, (hw.mem_iff q).1 (List.mem_singleton_self q)⟩

section Deterministic

variable (hdet : n.Deterministic) (hn : n.WellFormed) (hs : start < n.size)

include hdet hn

theorem edges_eq (hk : cs[k]? = some [q]) :
    d.edges k = (Region.byBegin (n.edges q)).map (Edge.rename (number index)) := by
  have hconnected : Powerset.Connected n cs [q] (d.edges k) := h.tracks.connected_edges hk
  rw [Powerset.Connected, hdet.ofEdges_singleton hn, List.forall₂_map_left_iff] at hconnected
  have htargets : ∀ e ∈ Region.byBegin (n.edges q), n.closure (Region.ofEdge e).targets = [e.target] :=
    fun e he => hdet.closure_ofEdge hn (Region.mem_byBegin.1 he)
  -- Each edge stands beside one over the same range, to the state that stands for its target.
  symm
  rw [← List.forall₂_eq_eq_eq, List.forall₂_map_left_iff]
  refine ((List.forall₂_and_left _ _).2 ⟨htargets, hconnected⟩).imp fun e e' ⟨htarget, hrange, hnumber⟩ => ?_
  obtain ⟨range, target⟩ := e'
  obtain rfl : range = e.toRange := hrange
  rw [htarget] at hnumber
  rw [Edge.rename, h.number_eq hnumber]

include hs

/-- Each configuration is a state: the first one is the start, and all others lie behind an edge of a state. -/
theorem exists_singleton {c : List Nat} (hc : cs[k]? = some c) : ∃ q, c = [q] := by
  -- Configurations are discovered from earlier ones, so the induction is on their numbers.
  induction k using Nat.strong_induction_on generalizing c with
  | _ k ih =>
      rcases Nat.eq_zero_or_pos k with rfl | hpos
      · obtain rfl := Option.some.inj (h.first.symm.trans hc)
        exact ⟨start, closure_singleton hdet.silent_eq_nil hs⟩
      · obtain ⟨b, j, hjk, hb, r, hr, rfl⟩ := h.discovered.parent c k ((h.tracks.index_iff c k).2 hc) hpos
        obtain ⟨q, rfl⟩ := ih j hjk ((h.tracks.index_iff b j).1 hb)
        rw [hdet.ofEdges_singleton hn] at hr
        obtain ⟨e, he, rfl⟩ := List.mem_map.1 hr
        exact ⟨e.target, hdet.closure_ofEdge hn (Region.mem_byBegin.1 he)⟩

/-- Each state that is reached is a configuration. -/
theorem exists_number {w : List Int} (hpath : Path n.Step start w q) : ∃ k : Nat, cs[k]? = some [q] := by
  obtain ⟨k, hk⟩ := h.tracks.exists_run? hn hs h.first ⟨q, hpath⟩
  obtain ⟨c, hc, hconf, -⟩ := h.tracks.configuration_of_run? hn hs h.first hk
  obtain ⟨r, rfl⟩ := h.exists_singleton hdet hn hs hc
  obtain rfl := List.mem_singleton.1 ((hconf.mem_iff q).2 hpath)
  exact ⟨k, hc⟩

/-- The states that are reached get the numbers below the size, each another one. -/
theorem bijOn_number : Set.BijOn (number index) {q | ∃ w, Path n.Step start w q} {k | k < d.size} := by
  refine ⟨?_, ?_, ?_⟩
  · rintro q ⟨w, hpath⟩
    obtain ⟨k, hk⟩ := h.exists_number hdet hn hs hpath
    rw [h.number_eq hk]
    exact h.lt_size_iff.2 ⟨_, hk⟩
  · rintro q ⟨w, hq⟩ r ⟨v, hr⟩ heq
    obtain ⟨k, hk⟩ := h.exists_number hdet hn hs hq
    obtain ⟨j, hj⟩ := h.exists_number hdet hn hs hr
    rw [h.number_eq hk, h.number_eq hj] at heq
    rw [heq, hj] at hk
    simpa [eq_comm] using hk
  · intro k hk
    obtain ⟨c, hc⟩ := h.lt_size_iff.1 hk
    obtain ⟨q, rfl⟩ := h.exists_singleton hdet hn hs hc
    exact ⟨q, h.exists_path hc, h.number_eq hc⟩

end Deterministic

end Finished

end NFA

/-! ## A fixed point -/

namespace DFA

variable {V : Type} (d : DFA V)

/-- The states of a deterministic automaton, with their numbers, and without silent edges. -/
def toNFA : NFA V := { states := d.states.map fun s => { edges := s.edges, value := s.value } }

@[simp] theorem size_toNFA : d.toNFA.size = d.size := by simp [toNFA, NFA.size, size]

@[simp] theorem edges_toNFA (q : Nat) : d.toNFA.edges q = d.edges q := by
  simp only [toNFA, NFA.edges, edges, Array.getElem?_map]
  cases d.states[q]? <;> rfl

@[simp] theorem silent_toNFA (q : Nat) : d.toNFA.silent q = [] := by
  simp only [toNFA, NFA.silent, Array.getElem?_map]
  cases d.states[q]? <;> rfl

@[simp] theorem value?_toNFA (q : Nat) : d.toNFA.value? q = d.value? q := by
  simp only [toNFA, NFA.value?, value?, Array.getElem?_map]
  cases d.states[q]? <;> rfl

theorem closure_toNFA {q : Nat} (hq : q < d.size) : d.toNFA.closure [q] = [q] :=
  NFA.closure_singleton d.silent_toNFA (by simpa using hq)

end DFA

namespace NFA

variable {V : Type} [DecidableEq V] {n : NFA V} {start : Nat}

namespace Finished

variable {d : DFA V} {cs : List (List Nat)} {index : Std.HashMap (List Nat) Nat}

/-- The configurations correspond to the states that stand for them. -/
theorem correspond (hn : n.WellFormed) (h : Finished n start d cs index) :
    Powerset.Correspond n d.toNFA fun c e => ∃ q, cs[q]? = some c ∧ e = [q] where
  eq_iff := by
    rintro b - c - ⟨q, hb, rfl⟩ ⟨r, hc, rfl⟩
    constructor
    · rintro rfl
      rw [h.number_unique hb hc]
    · intro heq
      obtain rfl : q = r := by simpa using heq
      exact Option.some.inj (hb.symm.trans hc)
  valueOf?_eq := by
    rintro c - ⟨q, hc, rfl⟩
    rw [valueOf?_singleton, DFA.value?_toNFA]
    exact h.tracks.value?_eq hc
  regions := by
    rintro c - ⟨q, hc, rfl⟩
    have hconnected : Powerset.Connected n cs c (d.edges q) := h.tracks.connected_edges hc
    rw [edgesOf_singleton, DFA.edges_toNFA, Region.ofEdges_of_separate (hconnected.separate hn),
      List.forall₂_map_right_iff]
    refine hconnected.imp fun r e hleads => ⟨hleads.1.symm, e.target, hleads.2, ?_⟩
    exact d.closure_toNFA (h.lt_size_iff.2 ⟨_, hleads.2⟩)

theorem determinize_toNFA (hn : n.WellFormed) (h : Finished n start d cs index) :
    d.toNFA.determinize d.start = n.determinize start := by
  refine (determinize_eq (h.correspond hn) ⟨d.start, ?_, d.closure_toNFA ?_⟩).symm
  · rw [h.start_eq]
    exact h.first
  · rw [h.start_eq]
    exact h.lt_size_iff.2 ⟨_, h.first⟩

end Finished

/-- An automaton without silent edges, and without code points under two edges of a state, has a deterministic
automaton. A map from the states that the start reaches onto its states, one to one, takes the start to the
start and keeps the values. The edges of a state are those of the state that was mapped to it, sorted by their
first code points and led to the states that their targets are mapped to. And if the states of a deterministic
automaton that was made from any automaton are taken as they are, then the automaton made from them is this
automaton again. -/
theorem determinize_renumbers (hn : n.WellFormed) (hs : start < n.size) :
    (n.Deterministic → ∃ (d : DFA V) (f : Nat → Nat), n.determinize start = .ok d ∧
      Set.BijOn f {q | ∃ w, Path n.Step start w q} {k | k < d.size} ∧
      f start = d.start ∧
      ∀ q, (∃ w, Path n.Step start w q) → d.value? (f q) = n.value? q ∧
        d.edges (f q) = (Region.byBegin (n.edges q)).map (Edge.rename f)) ∧
    ∀ d, n.determinize start = .ok d → d.toNFA.determinize d.start = .ok d := by
  refine ⟨fun hdet => ?_, fun d hd => ?_⟩
  · obtain ⟨d, hd⟩ := hdet.exists_determinize hn hs
    obtain ⟨cs, index, h⟩ := determinize_finished hn hs hd
    refine ⟨d, Finished.number index, hd, h.bijOn_number hdet hn hs, ?_, fun q ⟨w, hpath⟩ => ?_⟩
    · have hfirst := h.first
      rw [closure_singleton hdet.silent_eq_nil hs] at hfirst
      rw [h.number_eq hfirst, h.start_eq]
    · obtain ⟨k, hk⟩ := h.exists_number hdet hn hs hpath
      rw [h.number_eq hk]
      refine ⟨?_, h.edges_eq hdet hn hk⟩
      have hvalue : Powerset.valueOf? (n.valuesOf [q]) = .ok (d.value? k) := h.tracks.value?_eq hk
      rw [valueOf?_singleton] at hvalue
      exact (Except.ok.inj hvalue).symm
  · obtain ⟨cs, index, h⟩ := determinize_finished hn hs hd
    rw [h.determinize_toNFA hn, hd]

/-- Edges that are not sorted, a loop and a longer cycle, and a state that is not reached. -/
def unsorted : NFA Nat where
  states :=
    #[{ edges := #[⟨⟨110, 122⟩, 2⟩, ⟨⟨97, 99⟩, 3⟩, ⟨⟨100, 100⟩, 0⟩] },
      { edges := #[⟨⟨97, 97⟩, 2⟩], value := some 9 },
      { edges := #[⟨⟨98, 98⟩, 3⟩, ⟨⟨97, 97⟩, 0⟩], value := some 1 },
      { edges := #[⟨⟨97, 97⟩, 2⟩], value := some 2 }]

/-- The edges of the start are sorted, and the automaton made from the result is the result. The same is true of
what is made from an automaton that is not deterministic. -/
theorem determinize_renumbers_unsorted :
    unsorted.WellFormed ∧ 0 < unsorted.size ∧ unsorted.Deterministic ∧
      (∃ (d : DFA Nat) (f : Nat → Nat), unsorted.determinize 0 = .ok d ∧
        d.edges d.start = [⟨⟨97, 99⟩, f 3⟩, ⟨⟨100, 100⟩, d.start⟩, ⟨⟨110, 122⟩, f 2⟩] ∧
        d.toNFA.determinize d.start = .ok d) ∧
      looping.WellFormed ∧ ¬ looping.Deterministic ∧
      ∃ d, looping.determinize 0 = .ok d ∧ d.toNFA.determinize d.start = .ok d := by
  have hn : unsorted.WellFormed := by decide
  have hs : 0 < unsorted.size := by decide
  have hdet : unsorted.Deterministic := by decide
  have hsorted : Region.byBegin (unsorted.edges 0) = [⟨⟨97, 99⟩, 3⟩, ⟨⟨100, 100⟩, 0⟩, ⟨⟨110, 122⟩, 2⟩] := by
    simp [Region.byBegin, NFA.edges, unsorted, List.mergeSort, List.MergeSort.Internal.splitInTwo]
  obtain ⟨d, f, hd, -, hstart, hkept⟩ := (determinize_renumbers hn hs).1 hdet
  have hedges := (hkept 0 ⟨[], .nil 0⟩).2
  rw [hstart, hsorted] at hedges
  have hlooping : looping.WellFormed := by decide
  refine ⟨hn, hs, hdet, ⟨d, f, hd, ?_, (determinize_renumbers hn hs).2 d hd⟩, hlooping, by decide,
    looped, determinize_looping, (determinize_renumbers hlooping (by decide)).2 looped determinize_looping⟩
  rw [hedges, ← hstart]
  rfl

end NFA

end MaximalMunch
