import Mathlib.Data.List.Forall2
import Mathlib.Data.List.Induction
import Mathlib.Data.List.Nodup
import MaximalMunch.NFA.Powerset
import MaximalMunch.Proofs.Configuration
import MaximalMunch.Proofs.EdgeOffers
import MaximalMunch.Proofs.LongestMatch

/-!
# The powerset construction preserves meaning

The work list is followed with a list of configurations beside it: the entry at `q` is the configuration
that the deterministic state `q` stands for.

- `Powerset.Tracks`      : the invariant of the construction
- `Powerset.Yields`      : a part of the construction keeps the invariant, or stops at a collision
- `NFA.Collides`         : two values of one configuration, which is the only fault that occurs
- `DFA.Simulates`        : a deterministic automaton follows the configurations of another one, and accepts
  what it carries (`output?_iff`)
- `NFA.determinize_spec` : the construction simulates, or collides
-/

namespace MaximalMunch

namespace NFA

variable {V : Type}

namespace Powerset

/-! ## The edges of a configuration -/

/-- The edge `e` leads over the region `r` to the state that stands for the closure of its targets. -/
def Leads (n : NFA V) (cs : List (List Nat)) (r : Region) (e : Edge) : Prop :=
  e.toRange = r.toRange ∧ cs[e.target]? = some (n.closure r.targets)

/-- The edges lead over the regions of the configuration `c`. -/
def Connected (n : NFA V) (cs : List (List Nat)) (c : List Nat) (es : List Edge) : Prop :=
  List.Forall₂ (Leads n cs) (Region.ofEdges (n.edgesOf c)) es

section Mono

variable {n : NFA V} {cs cs' : List (List Nat)} {c : List Nat}

theorem getElem?_of_prefix {q : Nat} (h : cs <+: cs') (hq : cs[q]? = some c) : cs'[q]? = some c := by
  rcases h with ⟨more, rfl⟩
  have hlt : q < cs.length := (List.getElem?_eq_some_iff.1 hq).1
  rw [List.getElem?_append_left hlt]
  exact hq

/-- What stands in a list with one more entry behind it. -/
theorem getElem?_concat_iff {q : Nat} {d : List Nat} :
    (cs ++ [c])[q]? = some d ↔ cs[q]? = some d ∨ q = cs.length ∧ d = c := by
  rcases Nat.lt_trichotomy q cs.length with hlt | rfl | hgt
  · rw [List.getElem?_append_left hlt]
    have hne : q ≠ cs.length := by omega
    simp [hne]
  · simp [eq_comm]
  · have hne : q ≠ cs.length := by omega
    rw [List.getElem?_eq_none (by simp; omega), List.getElem?_eq_none (by omega)]
    simp [hne]

theorem Leads.mono (h : cs <+: cs') {r : Region} {e : Edge} (hl : Leads n cs r e) :
    Leads n cs' r e :=
  ⟨hl.1, getElem?_of_prefix h hl.2⟩

theorem Connected.mono (h : cs <+: cs') {es : List Edge} (hc : Connected n cs c es) :
    Connected n cs' c es :=
  List.Forall₂.imp (fun _ _ hl => hl.mono h) hc

end Mono

/-- What the regions of a reached configuration lead to is reached. -/
theorem reached_of_region {n : NFA V} {start : Nat} {c : List Nat} (hn : n.WellFormed)
    {w : List Int} (h : n.Configuration start w c) {r : Region}
    (hr : r ∈ Region.ofEdges (n.edgesOf c)) :
    ∃ w, n.Configuration start w (n.closure r.targets) := by
  have hproper := (Configuration.partition hn c).proper r hr
  exact ⟨w ++ [r.lo], h.snoc hn hr ⟨Int.le_refl _, hproper⟩⟩

/-- Each entry of the second list has a partner in the first one. -/
theorem exists_of_mem_right {α β : Type} {R : α → β → Prop} {as : List α} {bs : List β}
    (h : List.Forall₂ R as bs) {b : β} (hb : b ∈ bs) : ∃ a ∈ as, R a b := by
  induction h with
  | nil =>
      exact absurd hb (by simp)
  | cons hab _ ih =>
      rcases List.mem_cons.1 hb with rfl | hb
      · exact ⟨_, List.mem_cons_self, hab⟩
      · rcases ih hb with ⟨a, ha, hab⟩
        exact ⟨a, List.mem_cons_of_mem _ ha, hab⟩

end Powerset

variable [DecidableEq V]

/-- The fault lists the distinct values that one word leads to, in the order of the states. -/
def Collides (n : NFA V) (start : Nat) (f : Fault V) : Prop :=
  ∃ w c, n.Configuration start w c ∧ f = .collision (n.valuesOf c).eraseDups ∧
    2 ≤ (n.valuesOf c).eraseDups.length

namespace Powerset

/-! ## The value of a configuration -/

theorem mem_iff_of_valueOf?_eq_ok {vs : List V} {o : Option V} (h : valueOf? vs = .ok o) (v : V) :
    v ∈ vs ↔ o = some v := by
  rw [← List.mem_eraseDups]
  unfold valueOf? at h
  split at h
  · rename_i hnil
    cases h
    simp [hnil]
  · rename_i u hu
    cases h
    simp [hu, eq_comm]
  · exact absurd h (by simp)

theorem eq_of_valueOf?_eq_error {vs : List V} {f : Fault V} (h : valueOf? vs = .error f) :
    f = .collision vs.eraseDups ∧ 2 ≤ vs.eraseDups.length := by
  unfold valueOf? at h
  split at h
  · exact absurd h (by simp)
  · exact absurd h (by simp)
  · rename_i hnil hone
    refine ⟨by simpa using h.symm, ?_⟩
    rcases hvs : vs.eraseDups with _ | ⟨u, _ | ⟨v, us⟩⟩
    · exact absurd hvs hnil
    · exact absurd hvs (hone u)
    · simp

/-- Two entries of a list without duplicates are two values. -/
theorem exists_ne_of_two_le_eraseDups {vs : List V} (h : 2 ≤ vs.eraseDups.length) :
    ∃ u ∈ vs, ∃ v ∈ vs, u ≠ v := by
  cases vs with
  | nil =>
      simp at h
  | cons u us =>
      rw [List.eraseDups_cons] at h
      have hne : (us.filter fun v => !v == u).eraseDups ≠ [] := by
        intro hnil
        rw [hnil] at h
        simp at h
      rcases List.exists_mem_of_ne_nil _ hne with ⟨v, hv⟩
      rw [List.mem_eraseDups, List.mem_filter] at hv
      have hvu : v ≠ u := by simpa using hv.2
      exact ⟨u, by simp, v, List.mem_cons_of_mem _ hv.1, hvu.symm⟩

/-! ## The invariant -/

/-- The construction `p` stands for the configurations `cs`. Those of its states that are neither `busy`
nor pending have their edges. The pending ones have none, and each waits once. -/
structure Tracks (n : NFA V) (start : Nat) (busy : List Nat) (cs : List (List Nat))
    (p : Powerset V) : Prop where
  size_eq : p.states.size = cs.length
  index_iff : ∀ (c : List Nat) (q : Nat), p.index[c]? = some q ↔ cs[q]? = some c
  reached : ∀ c ∈ cs, ∃ w, n.Configuration start w c
  value_eq : ∀ (q : Nat) c s, cs[q]? = some c → p.states[q]? = some s →
    valueOf? (n.valuesOf c) = .ok s.value
  pending_eq : ∀ (q : Nat) c, (q, c) ∈ p.pending → cs[q]? = some c
  busy_lt : ∀ q ∈ busy, q < p.states.size
  distinct : (busy ++ p.pending.map Prod.fst).Nodup
  fresh : ∀ (q : Nat) c s, (q, c) ∈ p.pending → p.states[q]? = some s → s.edges = #[]
  connected : ∀ (q : Nat) c s, cs[q]? = some c → p.states[q]? = some s →
    q ∈ busy ∨ (q, c) ∈ p.pending ∨ Connected n cs c s.edges.toList

/-- A part of the construction keeps the invariant for more configurations and establishes `post`, or it
stops at a collision. -/
def Yields (n : NFA V) (start : Nat) (busy : List Nat) (cs : List (List Nat)) {p : Powerset V}
    {α : Type} (x : Except (Fault V) (Progress n p α)) (post : List (List Nat) → α → Prop) : Prop :=
  match x with
  | .error f => n.Collides start f
  | .ok r => ∃ cs', cs <+: cs' ∧ Tracks n start busy cs' r.after ∧ post cs' r.result

variable {n : NFA V} {start : Nat} {busy : List Nat} {cs : List (List Nat)} {c : List Nat}

theorem Yields.imp {p : Powerset V} {α : Type} {x : Except (Fault V) (Progress n p α)}
    {post post' : List (List Nat) → α → Prop} (h : Yields n start busy cs x post)
    (himp : ∀ cs' a, post cs' a → post' cs' a) : Yields n start busy cs x post' := by
  cases x with
  | error f =>
      exact h
  | ok r =>
      rcases h with ⟨cs', hcs, ht, hpost⟩
      exact ⟨cs', hcs, ht, himp _ _ hpost⟩

/-- At the beginning there is nothing to stand for. -/
theorem tracks_empty : Tracks n start [] [] ({} : Powerset V) where
  size_eq := rfl
  index_iff := by simp
  reached := by simp
  value_eq := by simp
  pending_eq := by simp
  busy_lt := by simp
  distinct := by simp
  fresh := by simp
  connected := by simp

theorem Tracks.lt_size {p : Powerset V} {q : Nat} (h : Tracks n start busy cs p) (hq : cs[q]? = some c) :
    q < p.states.size := by
  rw [h.size_eq]
  exact (List.getElem?_eq_some_iff.1 hq).1

/-- A configuration that has a number is in the index. -/
theorem Tracks.getElem?_ne_of_new {p : Powerset V} (h : Tracks n start busy cs p)
    (hnew : p.index.contains c = false) (q : Nat) : cs[q]? ≠ some c := by
  intro hq
  have hcontains : p.index.contains c = true := by
    rw [Std.HashMap.contains_eq_isSome_getElem?, (h.index_iff c q).2 hq]
    rfl
  rw [hnew] at hcontains
  exact absurd hcontains (by simp)

/-- The next number is not in use. -/
theorem Tracks.size_not_mem {p : Powerset V} (h : Tracks n start busy cs p) :
    p.states.size ∉ busy ++ p.pending.map Prod.fst := by
  intro hmem
  rcases List.mem_append.1 hmem with hbusy | hpending
  · exact absurd (h.busy_lt _ hbusy) (Nat.lt_irrefl _)
  · obtain ⟨⟨q, d⟩, hd, hq⟩ := List.mem_map.1 hpending
    exact absurd hq (Nat.ne_of_lt (h.lt_size (h.pending_eq q d hd)))

/-- With one more configuration, the numbers are those of before and the next one. -/
theorem Tracks.concat_iff {p : Powerset V} (h : Tracks n start busy cs p) {q : Nat} {d : List Nat} :
    (cs ++ [c])[q]? = some d ↔ cs[q]? = some d ∨ q = p.states.size ∧ d = c := by
  rw [h.size_eq]
  exact getElem?_concat_iff

/-- So are the states those of before and the new one. -/
theorem Tracks.push_cases {p : Powerset V} (h : Tracks n start busy cs p) {q : Nat} {d : List Nat}
    {s new : DFA.State V} (hd : (cs ++ [c])[q]? = some d) (hs : (p.states.push new)[q]? = some s) :
    (cs[q]? = some d ∧ p.states[q]? = some s) ∨ q = p.states.size ∧ d = c ∧ s = new := by
  rcases h.concat_iff.1 hd with hd | ⟨rfl, rfl⟩
  · rw [Array.getElem?_push, if_neg (Nat.ne_of_lt (h.lt_size hd))] at hs
    exact Or.inl ⟨hd, hs⟩
  · exact Or.inr ⟨rfl, rfl, by simpa [eq_comm] using hs⟩

/-- A new configuration gets the next number. -/
theorem Tracks.push {p : Powerset V} (h : Tracks n start busy cs p)
    (hreach : ∃ w, n.Configuration start w c) (hnew : p.index.contains c = false) {value : Option V}
    (hvalue : valueOf? (n.valuesOf c) = .ok value) :
    Tracks n start busy (cs ++ [c])
      { states := p.states.push { value }
        index := p.index.insert c p.states.size
        pending := (p.states.size, c) :: p.pending } where
  size_eq := by simp [h.size_eq]
  index_iff d q := by
    rw [h.concat_iff, Std.HashMap.getElem?_insert]
    by_cases hd : c = d
    · subst hd
      simp [h.getElem?_ne_of_new hnew, eq_comm]
    · have hne : ¬ (c == d) = true := by simpa using hd
      rw [if_neg hne, h.index_iff]
      simp [Ne.symm hd]
  reached d hd := by
    rcases List.mem_append.1 hd with hd | hd
    · exact h.reached d hd
    · obtain rfl : d = c := by simpa using hd
      exact hreach
  value_eq q d s hd hs := by
    rcases h.push_cases hd hs with ⟨hd, hs⟩ | ⟨-, rfl, rfl⟩
    · exact h.value_eq q d s hd hs
    · exact hvalue
  pending_eq q d hd := by
    rcases List.mem_cons.1 hd with hd | hd
    · cases hd
      exact h.concat_iff.2 (Or.inr ⟨rfl, rfl⟩)
    · exact h.concat_iff.2 (Or.inl (h.pending_eq q d hd))
  busy_lt q hq := by
    rw [Array.size_push]
    exact Nat.lt_succ_of_lt (h.busy_lt q hq)
  distinct := by
    rw [List.map_cons, List.nodup_middle, List.nodup_cons]
    exact ⟨h.size_not_mem, h.distinct⟩
  fresh q d s hd hs := by
    rcases List.mem_cons.1 hd with hd | hd
    · cases hd
      obtain rfl : { value } = s := by simpa using hs
      rfl
    · rw [Array.getElem?_push, if_neg (Nat.ne_of_lt (h.lt_size (h.pending_eq q d hd)))] at hs
      exact h.fresh q d s hd hs
  connected q d s hd hs := by
    -- The new state waits for its edges.
    rcases h.push_cases hd hs with ⟨hd, hs⟩ | ⟨rfl, rfl, rfl⟩
    · rcases h.connected q d s hd hs with hb | hp | hc
      · exact Or.inl hb
      · exact Or.inr (Or.inl (List.mem_cons_of_mem _ hp))
      · exact Or.inr (Or.inr (hc.mono (List.prefix_append _ _)))
    · exact Or.inr (Or.inl List.mem_cons_self)

/-! ## The steps of the construction -/

theorem register_spec {p : Powerset V} (h : Tracks n start busy cs p)
    (hreach : ∃ w, n.Configuration start w c) (hc : c.Sublist (List.range n.size)) :
    Yields n start busy cs (register n p c hc) fun cs' q => cs'[q]? = some c := by
  unfold register
  split
  · rename_i hold
    have hin : p.index[c]? = some (p.index.getD c 0) := by
      rw [Std.HashMap.getD_eq_getD_getElem?]
      rw [Std.HashMap.contains_eq_isSome_getElem?] at hold
      rcases Option.isSome_iff_exists.1 hold with ⟨q, hq⟩
      simp [hq]
    exact ⟨cs, List.prefix_rfl, h, (h.index_iff _ _).1 hin⟩
  · rename_i hnew
    cases hvalue : valueOf? (n.valuesOf c) with
    | error f =>
        rcases hreach with ⟨w, hw⟩
        exact ⟨w, c, hw, eq_of_valueOf?_eq_error hvalue⟩
    | ok value =>
        refine ⟨cs ++ [c], List.prefix_append _ _, h.push hreach (by simpa using hnew) hvalue, ?_⟩
        simp [h.size_eq]

/-- Ascending regions get one edge each. -/
theorem connect_spec {p : Powerset V} (h : Tracks n start busy cs p) (state : DFA.State V)
    (rs : List Region) (hreach : ∀ r ∈ rs, ∃ w, n.Configuration start w (n.closure r.targets))
    (hasc : rs.Pairwise fun a b => a.hi < b.lo)
    (hlast : ∀ l, state.edges.back? = some l → ∀ r ∈ rs, l.hi < r.lo) :
    Yields n start busy cs (connect n p state rs) fun cs' s =>
      s.value = state.value ∧
        ∃ es, s.edges.toList = state.edges.toList ++ es ∧ List.Forall₂ (Leads n cs') rs es := by
  -- Registering a target may add configurations, so the induction is over all `cs` and states.
  induction rs generalizing p cs state with
  | nil =>
      exact ⟨cs, List.prefix_rfl, h, rfl, [], by simp, List.Forall₂.nil⟩
  | cons r rs ih =>
      have hreg := register_spec h (hreach r (by simp)) (closure_sublist_range n r.targets)
      have hasc' := List.pairwise_cons.1 hasc
      rw [connect]
      generalize register n p (n.closure r.targets) (closure_sublist_range n r.targets) = x at hreg ⊢
      rcases x with f | ⟨q, p₁, h₁⟩
      · exact hreg
      · rcases hreg with ⟨cs₁, hcs₁, ht₁, hq⟩
        -- The regions ascend, so the new edge does not overlap the one before.
        have hedge : state.addEdge (.ofRange r.toRange q) =
            .ok { state with edges := state.edges.push (.ofRange r.toRange q) } :=
          DFA.State.addEdge_eq_ok_iff.2 ⟨fun l hl => hlast l hl r (by simp), rfl⟩
        have hrest := ih ht₁ { state with edges := state.edges.push (.ofRange r.toRange q) }
          (fun r' hr' => hreach r' (List.mem_cons_of_mem _ hr')) hasc'.2
          (fun l hl r' hr' => by
            obtain rfl : Edge.ofRange r.toRange q = l := by simpa using hl
            exact hasc'.1 r' hr')
        simp only [hedge]
        generalize connect n p₁ { state with edges := state.edges.push (.ofRange r.toRange q) } rs =
          y at hrest ⊢
        rcases y with f | ⟨s, p₂, h₂⟩
        · exact hrest
        · rcases hrest with ⟨cs₂, hcs₂, ht₂, hvalue, es, hes, hleads⟩
          refine ⟨cs₂, hcs₁.trans hcs₂, ht₂, hvalue, .ofRange r.toRange q :: es, ?_, ?_⟩
          · simpa using hes
          · exact List.Forall₂.cons ⟨rfl, getElem?_of_prefix hcs₂ hq⟩ hleads

/-- The entry at hand leaves the work list. -/
theorem Tracks.pop {states : Array (DFA.State V)} {index : Std.HashMap (List Nat) Nat} {q : Nat}
    {pending : List (Nat × List Nat)} (h : Tracks n start [] cs ⟨states, index, (q, c) :: pending⟩) :
    Tracks n start [q] cs ⟨states, index, pending⟩ :=
  { h with
    pending_eq := fun q' c' hmem => h.pending_eq q' c' (List.mem_cons_of_mem _ hmem)
    busy_lt := fun q' hq' => by
      obtain rfl : q' = q := by simpa using hq'
      exact h.lt_size (h.pending_eq q' c List.mem_cons_self)
    distinct := h.distinct
    fresh := fun q' c' s hmem => h.fresh q' c' s (List.mem_cons_of_mem _ hmem)
    connected := fun q' c' s hc hs => by
      rcases h.connected q' c' s hc hs with hb | hp | hdone
      · exact absurd hb (by simp)
      · rcases List.mem_cons.1 hp with heq | hp
        · cases heq
          exact Or.inl (by simp)
        · exact Or.inr (Or.inl hp)
      · exact Or.inr (Or.inr hdone) }

/-- The state at hand has got its edges. -/
theorem Tracks.finish {p : Powerset V} {q : Nat} (h : Tracks n start [q] cs p) (hq : cs[q]? = some c)
    {row : DFA.State V} (hvalue : valueOf? (n.valuesOf c) = .ok row.value)
    (hedges : Connected n cs c row.edges.toList) :
    Tracks n start [] cs { p with states := p.states.setIfInBounds q row } := by
  have hdistinct := List.nodup_cons.1 h.distinct
  have hstate : ∀ (q' : Nat) s', (p.states.setIfInBounds q row)[q']? = some s' →
      q' = q ∧ s' = row ∨ q' ≠ q ∧ p.states[q']? = some s' := by
    intro q' s' hs'
    rw [Array.getElem?_setIfInBounds] at hs'
    by_cases heq : q = q'
    · rw [if_pos heq, if_pos (h.lt_size hq)] at hs'
      exact Or.inl ⟨heq.symm, (Option.some.inj hs').symm⟩
    · rw [if_neg heq] at hs'
      exact Or.inr ⟨Ne.symm heq, hs'⟩
  exact
    { h with
      size_eq := by simp [h.size_eq]
      value_eq := fun q' c' s' hc hs' => by
        rcases hstate q' s' hs' with ⟨rfl, rfl⟩ | ⟨-, hs⟩
        · obtain rfl : c = c' := Option.some.inj (hq.symm.trans hc)
          exact hvalue
        · exact h.value_eq q' c' s' hc hs
      busy_lt := by simp
      distinct := hdistinct.2
      fresh := fun q' c' s' hmem hs' => by
        rcases hstate q' s' hs' with ⟨rfl, -⟩ | ⟨-, hs⟩
        · exact absurd (List.mem_map_of_mem hmem) hdistinct.1
        · exact h.fresh q' c' s' hmem hs
      connected := fun q' c' s' hc hs' => by
        rcases hstate q' s' hs' with ⟨rfl, rfl⟩ | ⟨hne, hs⟩
        · obtain rfl : c = c' := Option.some.inj (hq.symm.trans hc)
          exact Or.inr (Or.inr hedges)
        · rcases h.connected q' c' s' hc hs with hb | hp | hdone
          · exact absurd (List.mem_singleton.1 hb) hne
          · exact Or.inr (Or.inl hp)
          · exact Or.inr (Or.inr hdone) }

/-- The state at hand is connected to the regions of its configuration. -/
theorem connect_region_spec (hn : n.WellFormed) {states : Array (DFA.State V)}
    {index : Std.HashMap (List Nat) Nat} {q : Nat} {pending : List (Nat × List Nat)}
    (h : Tracks n start [] cs ⟨states, index, (q, c) :: pending⟩) :
    Yields n start [q] cs
      (connect n ⟨states, index, pending⟩ (states.getD q {}) (Region.ofEdges (n.edgesOf c)))
      fun cs' row => valueOf? (n.valuesOf c) = .ok row.value ∧ Connected n cs' c row.edges.toList := by
  have hq := h.pending_eq q c List.mem_cons_self
  rcases h.reached c (List.mem_of_getElem? hq) with ⟨w, hw⟩
  have hstate : states[q]? = some (states.getD q {}) := by
    rw [Array.getD_eq_getD_getElem?, Array.getElem?_eq_getElem (h.lt_size hq), Option.getD_some]
  have hempty : (states.getD q {}).edges = #[] := h.fresh q c _ List.mem_cons_self hstate
  have hspec := connect_spec h.pop (states.getD q {}) (Region.ofEdges (n.edgesOf c))
    (fun r hr => reached_of_region hn hw hr) (Configuration.partition hn c).ascending (by rw [hempty]; simp)
  refine hspec.imp fun cs' row hrow => ?_
  rcases hrow with ⟨hvalue, es, hes, hleads⟩
  rw [hvalue, hes, hempty]
  exact ⟨h.value_eq q c _ hq hstate, hleads⟩

theorem run_spec (hn : n.WellFormed) {p : Powerset V} (h : Tracks n start [] cs p) :
    match run n p with
    | .error f => n.Collides start f
    | .ok states => ∃ cs' index, cs <+: cs' ∧ Tracks n start [] cs' ⟨states, index, []⟩ := by
  -- Between two entries no state is busy, so `Tracks` with an empty list is the loop invariant.
  fun_induction run n p generalizing cs with
  | case1 states index =>
      exact ⟨cs, index, List.prefix_rfl, h⟩
  | case2 states index q c pending f hconnect =>
      have hspec := connect_region_spec hn h
      rw [hconnect] at hspec
      exact hspec
  | case3 states index q c pending row p hadv hconnect ih =>
      have hspec := connect_region_spec hn h
      rw [hconnect] at hspec
      rcases hspec with ⟨cs₁, hcs₁, ht₁, hvalue, hedges⟩
      have hq : cs₁[q]? = some c := getElem?_of_prefix hcs₁ (h.pending_eq q c List.mem_cons_self)
      have hrest := ih (ht₁.finish hq hvalue hedges)
      revert hrest
      split
      · exact fun hf => hf
      · rintro ⟨cs₂, index₂, hcs₂, ht₂⟩
        exact ⟨cs₂, index₂, hcs₁.trans hcs₂, ht₂⟩

/-! ## The finished automaton -/

variable {states : Array (DFA.State V)} {index : Std.HashMap (List Nat) Nat} {q₀ q : Nat}

/-- All states are connected when nothing is pending. -/
theorem Tracks.connected_edges (h : Tracks n start [] cs ⟨states, index, []⟩)
    (hq : cs[q]? = some c) : Connected n cs c (DFA.edges ⟨states, q₀⟩ q) := by
  have hlt : q < states.size := h.lt_size hq
  have hs : states[q]? = some states[q] := Array.getElem?_eq_getElem hlt
  rcases h.connected q c states[q] hq hs with hb | hp | hdone
  · exact absurd hb (by simp)
  · exact absurd hp (by simp)
  · simpa only [DFA.edges, hs] using hdone

theorem Tracks.value?_eq (h : Tracks n start [] cs ⟨states, index, []⟩) (hq : cs[q]? = some c) :
    valueOf? (n.valuesOf c) = .ok (DFA.value? ⟨states, q₀⟩ q) := by
  have hlt : q < states.size := h.lt_size hq
  have hs : states[q]? = some states[q] := Array.getElem?_eq_getElem hlt
  simpa only [DFA.value?, hs] using h.value_eq q c states[q] hq hs

omit [DecidableEq V] in
theorem Connected.separate (hn : n.WellFormed) {es : List Edge} (h : Connected n cs c es) :
    DFA.Separate es := by
  have hpart := Configuration.partition hn c
  have hranges : (Region.ofEdges (n.edgesOf c)).map Region.toRange = es.map Edge.toRange := by
    have heq : List.Forall₂ (fun r e => Region.toRange r = Edge.toRange e)
        (Region.ofEdges (n.edgesOf c)) es := h.imp fun _ _ hl => hl.1.symm
    rw [← List.forall₂_eq_eq_eq, List.forall₂_map_left_iff, List.forall₂_map_right_iff]
    exact heq
  have hasc : ((Region.ofEdges (n.edgesOf c)).map Region.toRange).Pairwise fun a b => a.hi < b.lo :=
    List.pairwise_map.2 hpart.ascending
  have hproper : ∀ r ∈ (Region.ofEdges (n.edgesOf c)).map Region.toRange, r.Proper := by
    intro r hr
    rcases List.mem_map.1 hr with ⟨r', hr', rfl⟩
    exact hpart.proper r' hr'
  rw [hranges] at hasc hproper
  exact
    { proper := fun e he => hproper e.toRange (List.mem_map_of_mem he)
      ascending := List.pairwise_map.1 hasc }

omit [DecidableEq V] in
theorem Connected.exists_region {es : List Edge} (h : Connected n cs c es) {e : Edge} (he : e ∈ es) :
    ∃ r ∈ Region.ofEdges (n.edgesOf c), Leads n cs r e :=
  exists_of_mem_right h he

omit [DecidableEq V] in
theorem Connected.exists_edge {es : List Edge} (h : Connected n cs c es) {r : Region}
    (hr : r ∈ Region.ofEdges (n.edgesOf c)) : ∃ e ∈ es, Leads n cs r e :=
  exists_of_mem_right h.flip hr

/-- An edge is followed over the region that covers the code point. -/
theorem Tracks.follow?_eq_some (hn : n.WellFormed) (h : Tracks n start [] cs ⟨states, index, []⟩)
    (hq : cs[q]? = some c) {p : Int} {t : Nat} (ht : DFA.follow? ⟨states, q₀⟩ q p = some t) :
    ∃ r ∈ Region.ofEdges (n.edgesOf c), r.Covers p ∧ cs[t]? = some (n.closure r.targets) := by
  have hedges : Connected n cs c (DFA.edges ⟨states, q₀⟩ q) := h.connected_edges hq
  rcases (DFA.follow?_eq_some_iff (hedges.separate hn)).1 ht with ⟨e, he, hp, rfl⟩
  rcases hedges.exists_region he with ⟨r, hr, hrange, htarget⟩
  rw [hrange] at hp
  exact ⟨r, hr, hp, htarget⟩

theorem Tracks.exists_follow? (hn : n.WellFormed) (h : Tracks n start [] cs ⟨states, index, []⟩)
    (hq : cs[q]? = some c) {p : Int} {r : Region} (hr : r ∈ Region.ofEdges (n.edgesOf c))
    (hp : r.Covers p) : ∃ t, DFA.follow? ⟨states, q₀⟩ q p = some t := by
  have hedges : Connected n cs c (DFA.edges ⟨states, q₀⟩ q) := h.connected_edges hq
  rcases hedges.exists_edge hr with ⟨e, he, hrange, -⟩
  rw [← hrange] at hp
  exact ⟨e.target, (DFA.follow?_eq_some_iff (hedges.separate hn)).2 ⟨e, he, hp, rfl⟩⟩

/-- The state that a word is followed to stands for the configuration of the word. -/
theorem Tracks.configuration_of_run? (hn : n.WellFormed) (hs : start < n.size)
    (h : Tracks n start [] cs ⟨states, index, []⟩) (h₀ : cs[q₀]? = some (n.closure [start]))
    {w : List Int} (hw : DFA.run? ⟨states, q₀⟩ q₀ w = some q) :
    ∃ c, cs[q]? = some c ∧ n.Configuration start w c ∧ c ≠ [] := by
  -- Words grow at their end, as configurations do.
  induction w using List.reverseRecOn generalizing q with
  | nil =>
      obtain rfl : q₀ = q := by simpa using hw
      have hconf := Configuration.nil hn hs
      exact ⟨_, h₀, hconf, hconf.ne_nil_iff.2 ⟨start, Path.nil _⟩⟩
  | append_singleton w p ih =>
      rw [DFA.run?_snoc] at hw
      rcases Option.bind_eq_some_iff.1 hw with ⟨m, hm, ht⟩
      rcases ih hm with ⟨c, hc, hconf, -⟩
      rcases h.follow?_eq_some hn hc ht with ⟨r, hr, hp, htarget⟩
      have hnext := hconf.snoc hn hr hp
      exact ⟨_, htarget, hnext, hnext.ne_nil_iff.2 ((hconf.exists_snoc_iff hn).2 ⟨r, hr, hp⟩)⟩

/-- A word that leads somewhere is followed. -/
theorem Tracks.exists_run? (hn : n.WellFormed) (hs : start < n.size)
    (h : Tracks n start [] cs ⟨states, index, []⟩) (h₀ : cs[q₀]? = some (n.closure [start]))
    {w : List Int} (hw : ∃ q, Path n.Step start w q) : ∃ q, DFA.run? ⟨states, q₀⟩ q₀ w = some q := by
  induction w using List.reverseRecOn with
  | nil =>
      exact ⟨q₀, by simp⟩
  | append_singleton w p ih =>
      have hbefore : ∃ q, Path n.Step start w q := by
        rcases hw with ⟨q, hq⟩
        rcases Path.snoc_iff.1 hq with ⟨a, b, ha, -, -⟩
        exact ⟨a, ha⟩
      rcases ih hbefore with ⟨m, hm⟩
      rcases h.configuration_of_run? hn hs h₀ hm with ⟨c, hc, hconf, -⟩
      rcases (hconf.exists_snoc_iff hn).1 hw with ⟨r, hr, hp⟩
      rcases h.exists_follow? hn hc hr hp with ⟨t, ht⟩
      refine ⟨t, ?_⟩
      rw [DFA.run?_snoc, hm]
      exact ht

end Powerset

end NFA

/-! ## Simulation -/

/-- A word is followed if it leads somewhere, to a state with the value that it carries. -/
structure DFA.Simulates {V : Type} (d : DFA V) (n : NFA V) (start : Nat) : Prop where
  isSome_run?_iff : ∀ w, (d.run? d.start w).isSome ↔ ∃ q, Path n.Step start w q
  value?_iff : ∀ w q, d.run? d.start w = some q → ∀ v, d.value? q = some v ↔ n.Carries start w v

namespace DFA.Simulates

variable {V : Type} {d : DFA V} {n : NFA V} {start : Nat}

/-- No word carries two values in an automaton that has a deterministic one. -/
theorem carries_unique (h : d.Simulates n start) {w : List Int} {u v : V}
    (hu : n.Carries start w u) (hv : n.Carries start w v) : u = v := by
  rcases hu with ⟨q, hq, hqu⟩
  rcases Option.isSome_iff_exists.1 ((h.isSome_run?_iff w).2 ⟨q, hq⟩) with ⟨t, ht⟩
  have hvalue := (h.value?_iff w t ht u).2 ⟨q, hq, hqu⟩
  rw [(h.value?_iff w t ht v).2 hv] at hvalue
  exact (Option.some.inj hvalue).symm

/-- A simulating automaton accepts a word for the value that it carries. -/
theorem output?_iff (h : d.Simulates n start) {w : List Int} {v : V} :
    d.output? w = some v ↔ n.Carries start w v := by
  constructor
  · intro hw
    rcases Option.bind_eq_some_iff.1 hw with ⟨q, hq, hv⟩
    exact (h.value?_iff w q hq v).1 hv
  · rintro hv
    rcases Option.isSome_iff_exists.1 ((h.isSome_run?_iff w).2 ⟨hv.choose, hv.choose_spec.1⟩) with
      ⟨q, hq⟩
    exact Option.bind_eq_some_iff.2 ⟨q, hq, (h.value?_iff w q hq v).2 hv⟩

end DFA.Simulates

namespace NFA

variable {V : Type} [DecidableEq V] {n : NFA V} {start : Nat}

theorem Collides.exists_ne {f : Fault V} (h : n.Collides start f) :
    ∃ w u v, n.Carries start w u ∧ n.Carries start w v ∧ u ≠ v := by
  rcases h with ⟨w, c, hc, -, htwo⟩
  rcases Powerset.exists_ne_of_two_le_eraseDups htwo with ⟨u, hu, v, hv, hne⟩
  exact ⟨w, u, v, hc.mem_valuesOf_iff.1 hu, hc.mem_valuesOf_iff.1 hv, hne⟩

/-- The construction ends with nothing pending, or stops at a collision. -/
theorem determinize_tracks (hn : n.WellFormed) (hs : start < n.size) :
    match n.determinize start with
    | .error f => n.Collides start f
    | .ok d => ∃ cs index, Powerset.Tracks n start [] cs ⟨d.states, index, []⟩ ∧
        cs[d.start]? = some (n.closure [start]) := by
  have hempty : Powerset.Tracks n start [] [] {} := Powerset.tracks_empty
  have hreg := Powerset.register_spec hempty ⟨[], Configuration.nil hn hs⟩
    (closure_sublist_range n [start])
  unfold determinize
  generalize Powerset.register n {} (n.closure [start]) (closure_sublist_range n [start]) = x at hreg ⊢
  rcases x with f | ⟨q₀, p, hadv⟩
  · exact hreg
  · rcases hreg with ⟨cs₁, -, ht₁, h₀⟩
    have hrun := Powerset.run_spec hn ht₁
    simp only
    generalize Powerset.run n p = y at hrun ⊢
    rcases y with f | states
    · exact hrun
    · rcases hrun with ⟨cs, index, hcs, ht⟩
      -- Nothing is renumbered, so the start still stands for the closure of `start`.
      exact ⟨cs, index, ht, Powerset.getElem?_of_prefix hcs h₀⟩

/-- The construction ends with an automaton that simulates, or stops at a collision. -/
theorem determinize_spec (hn : n.WellFormed) (hs : start < n.size) :
    match n.determinize start with
    | .error f => n.Collides start f
    | .ok d => d.Simulates n start := by
  have htracks := determinize_tracks hn hs
  generalize n.determinize start = x at htracks ⊢
  rcases x with f | d
  · exact htracks
  · rcases htracks with ⟨cs, index, ht, h₀⟩
    exact
      { isSome_run?_iff := fun w => by
          rw [Option.isSome_iff_exists]
          constructor
          · rintro ⟨q, hq⟩
            rcases ht.configuration_of_run? hn hs h₀ hq with ⟨c, -, hconf, hne⟩
            exact hconf.ne_nil_iff.1 hne
          · exact ht.exists_run? hn hs h₀
        value?_iff := fun w q hq v => by
          rcases ht.configuration_of_run? hn hs h₀ hq with ⟨c, hc, hconf, -⟩
          rw [← hconf.mem_valuesOf_iff]
          exact (Powerset.mem_iff_of_valueOf?_eq_ok (ht.value?_eq hc) v).symm }

/-- Where no word leads to two distinct values there is a deterministic automaton. -/
theorem exists_determinize (hn : n.WellFormed) (hs : start < n.size)
    (hone : ∀ w u v, n.Carries start w u → n.Carries start w v → u = v) : ∃ d, n.determinize start = .ok d := by
  have hspec := determinize_spec hn hs
  cases hd : n.determinize start with
  | ok d =>
      exact ⟨d, rfl⟩
  | error f =>
      rw [hd] at hspec
      rcases hspec.exists_ne with ⟨w, u, v, hu, hv, hne⟩
      exact absurd (hone w u v hu hv) hne

/-- Determinization succeeds if and only if no word leads to two distinct values. The automaton then follows
the words that lead to some state, and only those, to a state with the values that they lead to. Otherwise
the fault lists the distinct values of the states that one word leads to, in the order of these states. -/
theorem determinize_correct (hn : n.WellFormed) (hs : start < n.size) :
    ((∃ d, n.determinize start = .ok d) ↔
      ∀ w u v, n.Carries start w u → n.Carries start w v → u = v) ∧
    (∀ d, n.determinize start = .ok d → ∀ w,
      ((d.run? d.start w).isSome ↔ ∃ q, Path n.Step start w q) ∧
      ∀ q, d.run? d.start w = some q → ∀ v, d.value? q = some v ↔ n.Carries start w v) ∧
    ∀ f, n.determinize start = .error f → ∃ (w : List Int) (qs : List Nat),
      qs.Pairwise (· < ·) ∧ (∀ q, q ∈ qs ↔ Path n.Step start w q) ∧
      f = .collision (n.valuesOf qs).eraseDups ∧ 2 ≤ (n.valuesOf qs).eraseDups.length := by
  have hspec := determinize_spec hn hs
  refine ⟨⟨?_, exists_determinize hn hs⟩, fun d hd w => ?_, fun f hf => ?_⟩
  · rintro ⟨d, hd⟩ w u v hu hv
    rw [hd] at hspec
    exact hspec.carries_unique hu hv
  · rw [hd] at hspec
    exact ⟨hspec.isSome_run?_iff w, hspec.value?_iff w⟩
  · rw [hf] at hspec
    rcases hspec with ⟨w, c, hc, hfault, htwo⟩
    exact ⟨w, c, hc.ascending, hc.mem_iff, hfault, htwo⟩

/-- Two ranges that overlap in one code point, and a silent cycle behind them. -/
def overlapping : NFA Nat where
  states :=
    #[{ edges := #[⟨⟨97, 98⟩, 1⟩, ⟨⟨98, 99⟩, 2⟩] },
      { silent := #[3], value := some 1 },
      { value := some 2 },
      { silent := #[1] }]

/-- The code point under both ranges carries both values, so there is no automaton. -/
theorem determinize_correct_overlapping :
    overlapping.WellFormed ∧ 0 < overlapping.size ∧ ¬ ∃ d, overlapping.determinize 0 = .ok d := by
  have hedges : ∀ q, overlapping.edges q =
      if q = 0 then [⟨⟨97, 98⟩, 1⟩, ⟨⟨98, 99⟩, 2⟩] else [] := by
    rintro (_ | _ | _ | _ | q) <;> rfl
  have hsilent : ∀ q, overlapping.silent q = if q = 1 then [3] else if q = 3 then [1] else [] := by
    rintro (_ | _ | _ | _ | q) <;> rfl
  have hn : overlapping.WellFormed := by
    have hedge : ∀ q, ∀ e ∈ overlapping.edges q, e.Proper ∧ e.target < overlapping.size := by
      intro q e he
      rw [hedges] at he
      split at he
      · revert e
        decide
      · exact absurd he (by simp)
    refine ⟨fun q e he => (hedge q e he).1, fun q e he => (hedge q e he).2, fun q t ht => ?_⟩
    rw [hsilent] at ht
    split at ht
    · revert t
      decide
    · split at ht
      · revert t
        decide
      · exact absurd ht (by simp)
  have hs : 0 < overlapping.size := by decide
  refine ⟨hn, hs, fun hok => ?_⟩
  have hstep : ∀ e ∈ overlapping.edges 0, ∀ p, e.Covers p → Path overlapping.Step 0 [p] e.target :=
    fun e he p hp => Path.single (StepOver.edge he hp)
  have h1 : overlapping.Carries 0 [98] 1 := ⟨1, hstep ⟨⟨97, 98⟩, 1⟩ (by simp [hedges]) 98 (by decide), rfl⟩
  have h2 : overlapping.Carries 0 [98] 2 := ⟨2, hstep ⟨⟨98, 99⟩, 2⟩ (by simp [hedges]) 98 (by decide), rfl⟩
  exact absurd ((determinize_correct hn hs).1.1 hok [98] 1 2 h1 h2) (by decide)

end NFA

end MaximalMunch
