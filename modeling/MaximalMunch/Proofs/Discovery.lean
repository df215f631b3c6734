import MaximalMunch.Proofs.Determinization

/-!
# States are discovered from earlier ones

The powerset construction gives a number to each configuration when it first meets it, while it connects a
state that has a smaller number. It never refuses an edge, so what it answers is well-formed.

- `Powerset.register_cases`    : a configuration that is registered is known, or gets the next number
- `Powerset.connect_keeps`     : what registering keeps is kept by connecting a state
- `Powerset.Discovered`        : each numbered configuration but the first lies behind one with a smaller number
- `Powerset.run_discovers`     : the work list keeps this until nothing is pending
- `NFA.Finished`               : so it holds of the configurations of a finished automaton
- `NFA.determinize_wellFormed` : no edge is refused; the start, the edges and the order of the states
-/

namespace MaximalMunch

namespace NFA

namespace Powerset

variable {V : Type} [DecidableEq V] {n : NFA V} {p p' : Powerset V} {c : List Nat} {q : Nat}

/-! ## One registration, and all registrations of a state -/

/-- A registered configuration was known before, or it has no number yet, gets the next one and becomes
pending. -/
theorem register_cases {hc : c.Sublist (List.range n.size)} {hadv : Advances n p p'}
    (h : register n p c hc = .ok ⟨q, p', hadv⟩) :
    (p' = p ∧ p.index[c]? = some q) ∨
      (p.index[c]? = none ∧ q = p.states.size ∧ ∃ value : Option V,
        p' = { states := p.states.push { value }
               index := p.index.insert c q
               pending := (q, c) :: p.pending }) := by
  unfold register at h
  split at h
  · rename_i hold
    cases h
    rw [Std.HashMap.contains_eq_isSome_getElem?] at hold
    obtain ⟨k, hk⟩ := Option.isSome_iff_exists.1 hold
    refine Or.inl ⟨rfl, ?_⟩
    rw [Std.HashMap.getD_eq_getD_getElem?, hk]
    rfl
  · rename_i hnew
    split at h
    · exact absurd h (by simp)
    · rename_i value _
      cases h
      refine Or.inr ⟨?_, rfl, value, rfl⟩
      rw [Std.HashMap.contains_eq_isSome_getElem?] at hnew
      simpa using hnew

/-- What registering the closures behind some regions keeps is kept by adding edges over these regions. -/
theorem connect_keeps {P : Powerset V → Prop} {rs : List Region}
    (hP : ∀ r ∈ rs, ∀ (p p' : Powerset V) (q : Nat) (hadv : Advances n p p'), P p →
      register n p (n.closure r.targets) (closure_sublist_range n r.targets) = .ok ⟨q, p', hadv⟩ → P p')
    {state row : DFA.State V} {hadv : Advances n p p'} (hp : P p)
    (h : connect n p state rs = .ok ⟨row, p', hadv⟩) : P p' := by
  induction rs generalizing p state with
  | nil =>
      rw [connect] at h
      cases h
      exact hp
  | cons r rs ih =>
      rw [connect] at h
      split at h
      · exact absurd h (by simp)
      · rename_i q p₁ h₁ hreg
        have hp₁ : P p₁ := hP r (by simp) p p₁ q h₁ hp hreg
        split at h
        · exact absurd h (by simp)
        · split at h
          · exact absurd h (by simp)
          · rename_i hrest
            cases h
            exact ih (fun r' hr' => hP r' (List.mem_cons_of_mem _ hr')) hp₁ hrest

/-! ## The order of discovery -/

/-- The configuration `c` is what a region of the configuration `b` leads to. -/
def Behind (n : NFA V) (b c : List Nat) : Prop :=
  ∃ r ∈ Region.ofEdges (n.edgesOf b), c = n.closure r.targets

/-- Numbers are those of states, and each configuration with a number other than 0 lies behind one with a
smaller number. -/
structure Discovered (n : NFA V) (p : Powerset V) : Prop where
  lt_size : ∀ (c : List Nat) (q : Nat), p.index[c]? = some q → q < p.states.size
  parent : ∀ (c : List Nat) (q : Nat), p.index[c]? = some q → 0 < q →
    ∃ (b : List Nat) (j : Nat), j < q ∧ p.index[b]? = some j ∧ Behind n b c

omit [DecidableEq V] in
/-- A configuration without a number gets one, and all others keep theirs. -/
theorem getElem?_insert_iff {index : Std.HashMap (List Nat) Nat} (hnew : index[c]? = none) {b : List Nat}
    {j : Nat} : (index.insert c q)[b]? = some j ↔ index[b]? = some j ∨ (b = c ∧ j = q) := by
  rw [Std.HashMap.getElem?_insert]
  by_cases hb : b = c
  · subst hb
    simp [hnew, eq_comm]
  · have hne : ¬ (c == b) = true := by simpa using Ne.symm hb
    simp [hne, hb]

namespace Discovered

omit [DecidableEq V] in
/-- The next number goes to the first configuration, or to one behind a configuration that has a number. -/
theorem insert (h : Discovered n p) (hnew : p.index[c]? = none)
    (hbehind : p.states.size = 0 ∨ ∃ (b : List Nat) (j : Nat), p.index[b]? = some j ∧ Behind n b c)
    (value : Option V) (pending : List (Nat × List Nat)) :
    Discovered n
      { states := p.states.push { value }, index := p.index.insert c p.states.size, pending } := by
  refine { lt_size := fun d k hk => ?_, parent := fun d k hk hpos => ?_ }
  · rw [Array.size_push]
    rcases (getElem?_insert_iff hnew).1 hk with hold | ⟨-, rfl⟩
    · exact Nat.lt_succ_of_lt (h.lt_size d k hold)
    · exact Nat.lt_succ_self _
  · rcases (getElem?_insert_iff hnew).1 hk with hold | ⟨rfl, rfl⟩
    · obtain ⟨b, j, hlt, hb, hparent⟩ := h.parent d k hold hpos
      exact ⟨b, j, hlt, (getElem?_insert_iff hnew).2 (Or.inl hb), hparent⟩
    · rcases hbehind with hzero | ⟨b, j, hb, hparent⟩
      · exact absurd hzero (Nat.ne_of_gt hpos)
      · -- The parent has a state, so its number is smaller than the next one.
        exact ⟨b, j, h.lt_size b j hb, (getElem?_insert_iff hnew).2 (Or.inl hb), hparent⟩

/-- Registering keeps the order, and the numbers that were given before. -/
theorem register {b : List Nat} {j : Nat} {hc : c.Sublist (List.range n.size)} {hadv : Advances n p p'}
    (h : Discovered n p ∧ p.index[b]? = some j) (hbehind : Behind n b c)
    (hreg : Powerset.register n p c hc = .ok ⟨q, p', hadv⟩) :
    Discovered n p' ∧ p'.index[b]? = some j := by
  rcases register_cases hreg with ⟨rfl, -⟩ | ⟨hnew, rfl, value, rfl⟩
  · exact h
  · exact ⟨h.1.insert hnew (Or.inr ⟨b, j, h.2, hbehind⟩) value _,
      (getElem?_insert_iff hnew).2 (Or.inl h.2)⟩

/-- Connecting the state of a configuration keeps the order. -/
theorem connect {state row : DFA.State V} {hadv : Advances n p p'} (h : Discovered n p)
    (hq : p.index[c]? = some q)
    (hconnect : Powerset.connect n p state (Region.ofEdges (n.edgesOf c)) = .ok ⟨row, p', hadv⟩) :
    Discovered n p' := by
  have hkept := connect_keeps (P := fun p => Discovered n p ∧ p.index[c]? = some q)
    (fun r hr _ _ _ _ hp hreg => register hp ⟨r, hr, rfl⟩ hreg) ⟨h, hq⟩ hconnect
  exact hkept.1

end Discovered

/-- The work list ends with the configurations in the order of their discovery. -/
theorem run_discovers (hn : n.WellFormed) {start : Nat} {cs : List (List Nat)}
    (h : Tracks n start [] cs p) (hd : Discovered n p) {states : Array (DFA.State V)}
    (hrun : run n p = .ok states) :
    ∃ cs' index, cs <+: cs' ∧ Tracks n start [] cs' ⟨states, index, []⟩ ∧
      Discovered n ⟨states, index, []⟩ := by
  fun_induction run n p generalizing cs with
  | case1 states' index =>
      obtain rfl : states' = states := Except.ok.inj hrun
      exact ⟨cs, index, List.prefix_rfl, h, hd⟩
  | case2 =>
      exact absurd hrun (by simp)
  | case3 states' index q c pending row p hadv hconnect ih =>
      have hspec := connect_region_spec hn h
      rw [hconnect] at hspec
      obtain ⟨cs₁, hcs₁, ht₁, hvalue, hedges⟩ := hspec
      have hq : cs[q]? = some c := h.pending_eq q c List.mem_cons_self
      have hindex : index[c]? = some q := (h.index_iff c q).2 hq
      have hpop : Discovered n ⟨states', index, pending⟩ := ⟨hd.lt_size, hd.parent⟩
      have hd₁ : Discovered n p := hpop.connect hindex hconnect
      have hq₁ := getElem?_of_prefix hcs₁ hq
      obtain ⟨cs₂, index₂, hcs₂, hrest⟩ := ih (ht₁.finish hq₁ hvalue hedges)
        ⟨fun d k hk => by simpa using hd₁.lt_size d k hk, hd₁.parent⟩ hrun
      exact ⟨cs₂, index₂, hcs₁.trans hcs₂, hrest⟩

end Powerset

/-! ## The finished automaton -/

/-- Nothing is pending: the states of `d` stand for the configurations `cs`, which were discovered in this
order and begin with the closure of the start. -/
structure Finished {V : Type} [DecidableEq V] (n : NFA V) (start : Nat) (d : DFA V) (cs : List (List Nat))
    (index : Std.HashMap (List Nat) Nat) : Prop where
  tracks : Powerset.Tracks n start [] cs ⟨d.states, index, []⟩
  discovered : Powerset.Discovered n ⟨d.states, index, []⟩
  start_eq : d.start = 0
  first : cs[0]? = some (n.closure [start])

variable {V : Type} [DecidableEq V] {n : NFA V} {start : Nat}

theorem determinize_finished (hn : n.WellFormed) (hs : start < n.size) {d : DFA V}
    (hd : n.determinize start = .ok d) : ∃ cs index, Finished n start d cs index := by
  have hempty : Powerset.Tracks n start [] [] {} := Powerset.tracks_empty
  have hspec := Powerset.register_spec hempty ⟨[], Configuration.nil hn hs⟩
    (closure_sublist_range n [start])
  unfold determinize at hd
  split at hd
  · exact absurd hd (by simp)
  · rename_i q p hadv hreg
    rw [hreg] at hspec
    obtain ⟨cs₁, -, ht₁, h₀⟩ := hspec
    -- The index is empty at first, so the first configuration gets the number 0.
    have hfirst : q = 0 ∧ Powerset.Discovered n p := by
      rcases Powerset.register_cases hreg with ⟨-, hold⟩ | ⟨-, rfl, value, rfl⟩
      · exact absurd hold (by simp)
      · have hnone : Powerset.Discovered n {} := ⟨by simp, by simp⟩
        exact ⟨rfl, hnone.insert (by simp) (Or.inl rfl) value _⟩
    obtain ⟨rfl, hdisc⟩ := hfirst
    split at hd
    · exact absurd hd (by simp)
    · rename_i states hrun
      obtain rfl : ({ states, start := 0 } : DFA V) = d := Except.ok.inj hd
      obtain ⟨cs, index, hcs, ht, hdisc'⟩ := Powerset.run_discovers hn ht₁ hdisc hrun
      exact ⟨cs, index, ht, hdisc', rfl, Powerset.getElem?_of_prefix hcs h₀⟩

namespace Finished

variable {d : DFA V} {cs : List (List Nat)} {index : Std.HashMap (List Nat) Nat}

theorem lt_size_iff (h : Finished n start d cs index) {q : Nat} : q < d.size ↔ ∃ c, cs[q]? = some c := by
  rw [show d.size = cs.length from h.tracks.size_eq]
  constructor
  · intro hq
    exact ⟨cs[q], List.getElem?_eq_getElem hq⟩
  · rintro ⟨c, hc⟩
    exact (List.getElem?_eq_some_iff.1 hc).1

/-- A configuration has one number. -/
theorem number_unique (h : Finished n start d cs index) {c : List Nat} {q q' : Nat}
    (hq : cs[q]? = some c) (hq' : cs[q']? = some c) : q = q' := by
  have hindex := (h.tracks.index_iff c q).2 hq
  rw [(h.tracks.index_iff c q').2 hq'] at hindex
  exact (Option.some.inj hindex).symm

/-- The edges of each state are separate, and they lead to states that are there. -/
theorem edges_spec (hn : n.WellFormed) (h : Finished n start d cs index) (q : Nat) :
    DFA.Separate (d.edges q) ∧ ∀ e ∈ d.edges q, e.target < d.size := by
  by_cases hq : q < d.size
  · obtain ⟨c, hc⟩ := h.lt_size_iff.1 hq
    have hconnected : Powerset.Connected n cs c (d.edges q) := h.tracks.connected_edges hc
    refine ⟨hconnected.separate hn, fun e he => ?_⟩
    obtain ⟨r, -, -, htarget⟩ := hconnected.exists_region he
    exact h.lt_size_iff.2 ⟨_, htarget⟩
  · have hnone : d.states[q]? = none := Array.getElem?_eq_none (Nat.not_lt.1 hq)
    have hnil : d.edges q = [] := by simp [DFA.edges, hnone]
    rw [hnil]
    exact ⟨DFA.Separate.nil, by simp⟩

/-- Every state but the start is the target of an edge of a state with a smaller number. -/
theorem exists_edge_of_pos (h : Finished n start d cs index) {k : Nat} (hpos : 0 < k) (hk : k < d.size) :
    ∃ j < k, ∃ e ∈ d.edges j, e.target = k := by
  obtain ⟨c, hc⟩ := h.lt_size_iff.1 hk
  obtain ⟨b, j, hjk, hb, r, hr, hbehind⟩ := h.discovered.parent c k ((h.tracks.index_iff c k).2 hc) hpos
  -- The parent is connected: an edge of it leads over the region to the state of this configuration.
  have hconnected : Powerset.Connected n cs b (d.edges j) :=
    h.tracks.connected_edges ((h.tracks.index_iff b j).1 hb)
  obtain ⟨e, he, -, htarget⟩ := hconnected.exists_edge hr
  rw [← hbehind] at htarget
  exact ⟨j, hjk, e, he, h.number_unique htarget hc⟩

end Finished

/-- While an automaton is made deterministic no edge is refused: the regions over which a configuration gets
its edges have at least one code point each, and they ascend without overlaps. The result begins in state 0;
the edges of its states are of this kind, too, and lead to states that are there; and every other state is
the target of an edge of a state with a smaller number. -/
theorem determinize_wellFormed (hn : n.WellFormed) (hs : start < n.size) :
    (∀ o, n.determinize start ≠ .error (.overlap o)) ∧
    (∀ c, (∀ r ∈ Region.ofEdges (n.edgesOf c), r.lo ≤ r.hi) ∧
      (Region.ofEdges (n.edgesOf c)).Pairwise fun a b => a.hi < b.lo) ∧
    ∀ d, n.determinize start = .ok d →
      d.start = 0 ∧ 0 < d.size ∧
      (∀ q, (∀ e ∈ d.edges q, e.lo ≤ e.hi ∧ e.target < d.size) ∧
        (d.edges q).Pairwise fun a b => a.hi < b.lo) ∧
      ∀ k, 0 < k → k < d.size → ∃ j < k, ∃ e ∈ d.edges j, e.target = k := by
  refine ⟨fun o ho => ?_, fun c => ?_, fun d hd => ?_⟩
  · have hspec := determinize_spec hn hs
    rw [ho] at hspec
    obtain ⟨w, c, -, hfault, -⟩ := hspec
    exact absurd hfault (by simp)
  · have hpart := Configuration.partition hn c
    exact ⟨hpart.proper, hpart.ascending⟩
  · obtain ⟨cs, index, h⟩ := determinize_finished hn hs hd
    refine ⟨h.start_eq, h.lt_size_iff.2 ⟨_, h.first⟩, fun q => ?_,
      fun k hpos hk => h.exists_edge_of_pos hpos hk⟩
    obtain ⟨hseparate, htarget⟩ := h.edges_spec hn q
    exact ⟨fun e he => ⟨hseparate.proper e he, htarget e he⟩, hseparate.ascending⟩

/-- Three ranges that overlap, a loop that reads, and a silent cycle. -/
def looping : NFA Nat where
  states :=
    #[{ edges := #[⟨⟨97, 99⟩, 1⟩, ⟨⟨98, 98⟩, 2⟩, ⟨⟨98, 101⟩, 0⟩] },
      { silent := #[3], value := some 1 },
      { edges := #[⟨⟨97, 97⟩, 2⟩], silent := #[0] },
      { silent := #[1] }]

/-- What the regions of its configurations lead to: there are four of them. -/
theorem closures_looping :
    looping.closure [0] = [0] ∧ looping.closure [1] = [1, 3] ∧ looping.closure [1, 0] = [0, 1, 3] ∧
      looping.closure [1, 2, 0] = [0, 1, 2, 3] ∧ looping.closure [1, 2] = [0, 1, 2, 3] := by
  refine ⟨?_, ?_, ?_, ?_, ?_⟩
  all_goals cbv

theorem regions_looping :
    Region.ofEdges (looping.edgesOf [0]) =
        [⟨⟨97, 97⟩, [1]⟩, ⟨⟨98, 98⟩, [1, 2, 0]⟩, ⟨⟨99, 99⟩, [1, 0]⟩, ⟨⟨100, 101⟩, [0]⟩] ∧
      Region.ofEdges (looping.edgesOf [1, 3]) = [] ∧
      Region.ofEdges (looping.edgesOf [0, 1, 3]) =
        [⟨⟨97, 97⟩, [1]⟩, ⟨⟨98, 98⟩, [1, 2, 0]⟩, ⟨⟨99, 99⟩, [1, 0]⟩, ⟨⟨100, 101⟩, [0]⟩] ∧
      Region.ofEdges (looping.edgesOf [0, 1, 2, 3]) =
        [⟨⟨97, 97⟩, [1, 2]⟩, ⟨⟨98, 98⟩, [1, 2, 0]⟩, ⟨⟨99, 99⟩, [1, 0]⟩, ⟨⟨100, 101⟩, [0]⟩] := by
  simp [Region.ofEdges, edgesOf, edges, looping, List.mergeSort, List.MergeSort.Internal.splitInTwo, Region.sweep,
    Region.remainder, Region.stop, Region.leastEnd, Region.beyond?, Int.min_def, List.eraseDups_cons]

theorem valueOf?_looping :
    Powerset.valueOf? (looping.valuesOf [0]) = .ok none ∧ Powerset.valueOf? (looping.valuesOf [1, 3]) = .ok (some 1) ∧
      Powerset.valueOf? (looping.valuesOf [0, 1, 3]) = .ok (some 1) ∧
      Powerset.valueOf? (looping.valuesOf [0, 1, 2, 3]) = .ok (some 1) := by
  with_unfolding_all exact ⟨rfl, rfl, rfl, rfl⟩

/-- What is made of the automaton. The state that is discovered last is the first to get its edges. -/
def looped : DFA Nat where
  states :=
    #[{ edges := #[⟨⟨97, 97⟩, 1⟩, ⟨⟨98, 98⟩, 2⟩, ⟨⟨99, 99⟩, 3⟩, ⟨⟨100, 101⟩, 0⟩] },
      { value := some 1 },
      { edges := #[⟨⟨97, 97⟩, 2⟩, ⟨⟨98, 98⟩, 2⟩, ⟨⟨99, 99⟩, 3⟩, ⟨⟨100, 101⟩, 0⟩], value := some 1 },
      { edges := #[⟨⟨97, 97⟩, 1⟩, ⟨⟨98, 98⟩, 2⟩, ⟨⟨99, 99⟩, 3⟩, ⟨⟨100, 101⟩, 0⟩], value := some 1 }]
  start := 0

theorem determinize_looping : looping.determinize 0 = .ok looped := by
  simp [determinize, Powerset.register, Powerset.run, Powerset.connect, closures_looping, regions_looping,
    valueOf?_looping, DFA.State.addEdge, Edge.ofRange, Std.HashMap.getD_insert, looped]

/-- The loops of the automaton come back to earlier states, and all others are discovered in order. -/
theorem determinize_wellFormed_looping :
    looping.WellFormed ∧ 0 < looping.size ∧ ∃ d, looping.determinize 0 = .ok d ∧ d.start = 0 ∧
      ∀ k, 0 < k → k < d.size → ∃ j < k, ∃ e ∈ d.edges j, e.target = k := by
  have hn : looping.WellFormed := by decide
  have hs : 0 < looping.size := by decide
  obtain ⟨hstart, -, -, horder⟩ := (determinize_wellFormed hn hs).2.2 looped determinize_looping
  exact ⟨hn, hs, looped, determinize_looping, hstart, horder⟩

end NFA

end MaximalMunch
