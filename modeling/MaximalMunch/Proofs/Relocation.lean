import MaximalMunch.Proofs.RuleSet

/-!
# What is built does not depend on where it is built

The states of a rule get the next free numbers, so they differ from those that the rule has in a compiler of
its own. Nothing else differs: each step of the rule is a step of the rule alone, at its place.

- `NFA.place`          : the number that a state of an automaton gets in a copy behind other states
- `NFA.Relocated`      : what was added behind the start is a copy of an automaton
- `Relocated.addState`, `Relocated.addEdges`, `Relocated.addSilent` : a copy grows with its original
- `Relocated.path_iff` : the words that lead to a state of the copy are those of its original
- `Tree.lowersAlike`   : a tree that is lowered into both keeps them alike, by induction on the tree
- `Compiler.relocated_insert`, `Compiler.relocated_addEndOfText` : a rule is a copy of the rule alone
-/

namespace MaximalMunch

open CodePoint
open Compiler (start)

theorem Edge.rename_ofRange (f : Nat → Nat) (r : Range) (t : Nat) :
    (Edge.ofRange r t).rename f = Edge.ofRange r (f t) := rfl

namespace NFA

variable {V : Type}

/-! ## Places -/

/-- The number of a state in a copy behind `k` states. The copy has the start in common with them. -/
def place (k : Nat) : Nat → Nat
  | 0 => start
  | q + 1 => k + q

theorem place_injective {k : Nat} (hk : 0 < k) : Function.Injective (place k) := by
  intro q q' h
  cases q with
  | zero =>
      cases q' with
      | zero =>
          rfl
      | succ q' =>
          simp only [place, start] at h
          omega
  | succ q =>
      cases q' with
      | zero =>
          simp only [place, start] at h
          omega
      | succ q' =>
          simp only [place] at h
          omega

theorem exists_place {k q : Nat} (h : k ≤ q) : ∃ z, q = place k (z + 1) := by
  refine ⟨q - k, ?_⟩
  simp only [place]
  omega

/-! ## Copies -/

/-- What `n` has behind the edges of `n₀` is a copy of `g`, which is placed behind the states of `n₀`. -/
structure Relocated (n₀ g n : NFA V) : Prop where
  base_pos : 0 < n₀.size
  /-- No silent edge of `n₀` leads to a state of the copy, or back to the start. -/
  unentered : ∀ q t, place n₀.size t ∉ n₀.silent q
  pos : 0 < g.size
  size_eq : n.size + 1 = n₀.size + g.size
  edges : ∀ q, n.edges (place n₀.size q) =
    n₀.edges (place n₀.size q) ++ (g.edges q).map (Edge.rename (place n₀.size))
  silent : ∀ q, n.silent (place n₀.size q) =
    n₀.silent (place n₀.size q) ++ (g.silent q).map (place n₀.size)

namespace Relocated

variable {n₀ g n : NFA V}

/-- At first the copy has the start only. -/
theorem initial (hpos : 0 < n₀.size) (hfresh : ∀ q t, place n₀.size t ∉ n₀.silent q) :
    Relocated n₀ empty.addEmpty n₀ where
  base_pos := hpos
  unentered := hfresh
  pos := by simp
  size_eq := rfl
  edges := by simp
  silent := by simp

theorem place_inj (h : Relocated n₀ g n) {q q' : Nat} : place n₀.size q = place n₀.size q' ↔ q = q' :=
  (place_injective h.base_pos).eq_iff

/-- The next state has its place behind all others. -/
theorem place_size (h : Relocated n₀ g n) : place n₀.size g.size = n.size := by
  have hsize := h.size_eq
  obtain ⟨k, hk⟩ := Nat.exists_eq_succ_of_ne_zero (Nat.ne_of_gt h.pos)
  rw [hk] at hsize ⊢
  show n₀.size + k = n.size
  omega

theorem place_lt_iff (h : Relocated n₀ g n) {q : Nat} : place n₀.size q < n.size ↔ q < g.size := by
  have hsize := h.size_eq
  have hbase := h.base_pos
  have hpos := h.pos
  cases q with
  | zero =>
      simp only [place, start]
      omega
  | succ q =>
      simp only [place]
      omega

/-! ## Growth of a copy -/

theorem addState (h : Relocated n₀ g n) (v : Option V) : Relocated n₀ (g.addState v) (n.addState v) where
  base_pos := h.base_pos
  unentered := h.unentered
  pos := by simp
  size_eq := by
    have := h.size_eq
    simp only [size_addState]
    omega
  edges := by
    intro q
    simp only [edges_addState]
    exact h.edges q
  silent := by
    intro q
    simp only [silent_addState]
    exact h.silent q

theorem addEdges (h : Relocated n₀ g n) (s : Nat) (rs : List Range) (t : Nat) :
    Relocated n₀ (g.addEdges s rs t) (n.addEdges (place n₀.size s) rs (place n₀.size t)) where
  base_pos := h.base_pos
  unentered := h.unentered
  pos := by simpa using h.pos
  size_eq := by simpa using h.size_eq
  edges := by
    intro q
    rw [edges_addEdges, edges_addEdges, h.edges q, List.map_append, List.append_assoc]
    simp only [h.place_inj, h.place_lt_iff]
    split
    · simp [Edge.rename_ofRange]
    · simp
  silent := by
    intro q
    simp only [silent_addEdges]
    exact h.silent q

theorem addSilent (h : Relocated n₀ g n) (s t : Nat) :
    Relocated n₀ (g.addSilent s t) (n.addSilent (place n₀.size s) (place n₀.size t)) where
  base_pos := h.base_pos
  unentered := h.unentered
  pos := by simpa using h.pos
  size_eq := by simpa using h.size_eq
  edges := by
    intro q
    simp only [edges_addSilent]
    exact h.edges q
  silent := by
    intro q
    -- The edge is there already if and only if the copy has it: no other silent edge leads to its places.
    have hmem : place n₀.size t ∈ n.silent (place n₀.size s) ↔ t ∈ g.silent s := by
      rw [h.silent s, List.mem_append, List.mem_map]
      constructor
      · rintro (hold | ⟨u, hu, heq⟩)
        · exact absurd hold (h.unentered _ t)
        · exact h.place_inj.1 heq ▸ hu
      · intro ht
        exact Or.inr ⟨t, ht, rfl⟩
    rw [silent_addSilent, silent_addSilent, h.silent q, List.map_append, List.append_assoc]
    simp only [h.place_inj, h.place_lt_iff, hmem, ne_eq]
    split
    · rfl
    · rfl

theorem addEmpty (h : Relocated n₀ g n) : Relocated n₀ g.addEmpty n.addEmpty := h.addState none

/-- A silent edge to the next state, which is added with it. -/
theorem addNext (h : Relocated n₀ g n) (s : Nat) :
    Relocated n₀ (g.addEmpty.addSilent s g.size) (n.addEmpty.addSilent (place n₀.size s) n.size) := by
  have hnext := h.addEmpty.addSilent s g.size
  rw [h.place_size] at hnext
  exact hnext

theorem withEntry (h : Relocated n₀ g n) (s : Nat) :
    Relocated n₀ (g.withEntry s) (n.withEntry (place n₀.size s)) := (h.addNext s).addNext s

/-! ## Steps and words of a copy -/

/-- What was added steps from place to place, as the original steps from state to state. -/
theorem added_iff (h : Relocated n₀ g n) {q y : Nat} {l : Option Int} :
    Added n₀ n (place n₀.size q) l y ↔ ∃ z, y = place n₀.size z ∧ g.Step q l z := by
  have hedges : (n.edges (place n₀.size q)).drop (n₀.edges (place n₀.size q)).length =
      (g.edges q).map (Edge.rename (place n₀.size)) := by
    rw [h.edges q, List.drop_left]
  have hsilent : (n.silent (place n₀.size q)).drop (n₀.silent (place n₀.size q)).length =
      (g.silent q).map (place n₀.size) := by
    rw [h.silent q, List.drop_left]
  constructor
  · intro hadd
    cases hadd with
    | silent hmem =>
        rw [hsilent] at hmem
        obtain ⟨z, hz, rfl⟩ := List.mem_map.1 hmem
        exact ⟨z, rfl, .silent hz⟩
    | edge hmem hp =>
        rw [hedges] at hmem
        obtain ⟨e, he, rfl⟩ := List.mem_map.1 hmem
        exact ⟨e.target, rfl, .edge he hp⟩
  · rintro ⟨z, rfl, hstep⟩
    cases hstep with
    | silent hmem =>
        refine .silent ?_
        rw [hsilent]
        exact List.mem_map_of_mem hmem
    | @edge e p hmem hp =>
        have hmem' : e.rename (place n₀.size) ∈
            (n.edges (place n₀.size q)).drop (n₀.edges (place n₀.size q)).length := by
          rw [hedges]
          exact List.mem_map_of_mem hmem
        exact StepOver.edge (e := e.rename (place n₀.size)) hmem' hp

/-- The words that lead from place to place lead from state to state in the original. -/
theorem path_iff (h : Relocated n₀ g n) {q z : Nat} {w : List Int} :
    Path (Added n₀ n) (place n₀.size q) w (place n₀.size z) ↔ Path g.Step q w z := by
  constructor
  · intro hpath
    generalize hx : place n₀.size q = x at hpath
    generalize hy : place n₀.size z = y at hpath
    induction hpath generalizing q with
    | nil x =>
        obtain rfl := h.place_inj.1 (hx.trans hy.symm)
        exact Path.nil q
    | step hstep _ ih =>
        subst hx
        obtain ⟨u, hu, hstep⟩ := h.added_iff.1 hstep
        exact Path.step hstep (ih hu.symm hy)
  · intro hpath
    induction hpath with
    | nil q =>
        exact Path.nil _
    | step hstep _ ih =>
        exact Path.step (h.added_iff.2 ⟨_, rfl, hstep⟩) ih

end Relocated

end NFA

/-! ## Lowering -/

namespace Tree

open MaximalMunch.NFA

variable {V : Type} {n₀ : NFA V} {r r' : NFA V × Nat}

/-- An automaton and its copy, with a state and its place. -/
structure Alike (n₀ : NFA V) (r r' : NFA V × Nat) : Prop where
  relocated : Relocated n₀ r.1 r'.1
  state : r'.2 = place n₀.size r.2

/-- Lowering the tree into an automaton and into its copy keeps them alike. -/
def LowersAlike (n₀ : NFA V) (t : Tree) : Prop :=
  ∀ r r', Alike n₀ r r' → Alike n₀ (t.lower r.1 r.2) (t.lower r'.1 r'.2)

theorem Alike.addSilent (h : Alike n₀ r r') (t : Nat) :
    Relocated n₀ (r.1.addSilent r.2 t) (r'.1.addSilent r'.2 (place n₀.size t)) := by
  rw [h.state]
  exact h.relocated.addSilent r.2 t

theorem Alike.withAccept (h : Alike n₀ r r') (v : V) :
    Relocated n₀ (r.1.withAccept r.2 v) (r'.1.withAccept r'.2 v) := by
  have haccept := (h.relocated.addState (some v)).addSilent r.2 r.1.size
  rw [← h.state, h.relocated.place_size] at haccept
  exact haccept

theorem alike_lowerSequence {ts : List Tree} (hts : ∀ t ∈ ts, t.LowersAlike n₀) (h : Alike n₀ r r') :
    Alike n₀ (lowerSequence ts r.1 r.2) (lowerSequence ts r'.1 r'.2) := by
  induction ts generalizing r r' with
  | nil =>
      exact h
  | cons t ts ih =>
      exact ih (fun u hu => hts u (by simp [hu])) (hts t (by simp) r r' h)

theorem relocated_lowerChoice {ts : List Tree} (hts : ∀ t ∈ ts, t.LowersAlike n₀) {g n : NFA V}
    (h : Relocated n₀ g n) (s next : Nat) :
    Relocated n₀ (lowerChoice ts g s next)
      (lowerChoice ts n (place n₀.size s) (place n₀.size next)) := by
  induction ts generalizing g n with
  | nil =>
      exact h
  | cons t ts ih =>
      have hlower := hts t (by simp) (g, s) (n, place n₀.size s) ⟨h, rfl⟩
      exact ih (fun u hu => hts u (by simp [hu])) (hlower.addSilent next)

theorem alike_repeat {f f' : NFA V × Nat → NFA V × Nat}
    (hf : ∀ r r', Alike n₀ r r' → Alike n₀ (f r) (f' r')) (k : Nat) (h : Alike n₀ r r') :
    Alike n₀ (Nat.repeat f k r) (Nat.repeat f' k r') := by
  induction k with
  | zero =>
      exact h
  | succ k ih =>
      exact hf _ _ ih

theorem alike_copyTo {t : Tree} (ht : t.LowersAlike n₀) (next : Nat) (h : Alike n₀ r r') :
    Alike n₀ (copyTo t next r) (copyTo t (place n₀.size next) r') :=
  have hlower := ht r r' h
  ⟨hlower.addSilent next, hlower.state⟩

/-- The optional copies behind the required ones, with their common end. -/
theorem alike_optional {t : Tree} (ht : t.LowersAlike n₀) (k : Nat) (h : Alike n₀ r r') :
    Alike n₀
      ((Nat.repeat (copyTo t r.1.size) k (r.1.addEmpty.addSilent r.2 r.1.size, r.2)).1, r.1.size)
      ((Nat.repeat (copyTo t r'.1.size) k (r'.1.addEmpty.addSilent r'.2 r'.1.size, r'.2)).1, r'.1.size) := by
  have hend := h.relocated.addNext r.2
  rw [← h.state] at hend
  have hfirst : Alike n₀ (r.1.addEmpty.addSilent r.2 r.1.size, r.2)
      (r'.1.addEmpty.addSilent r'.2 r'.1.size, r'.2) := ⟨hend, h.state⟩
  have hcopies := alike_repeat (fun _ _ hr => alike_copyTo ht r.1.size hr) k hfirst
  rw [h.relocated.place_size] at hcopies
  exact ⟨hcopies.relocated, h.relocated.place_size.symm⟩

/-- The loop behind the required copies, with its entry and its end. -/
theorem alike_loop {t : Tree} (ht : t.LowersAlike n₀) (h : Alike n₀ r r') :
    Alike n₀
      (let c := t.lower (r.1.withEntry r.2) (r.1.size + 1)
       ((c.1.addSilent c.2 (r.1.size + 1)).addSilent c.2 r.1.size, r.1.size))
      (let c := t.lower (r'.1.withEntry r'.2) (r'.1.size + 1)
       ((c.1.addSilent c.2 (r'.1.size + 1)).addSilent c.2 r'.1.size, r'.1.size)) := by
  have hentry := (h.relocated.addNext r.2).place_size
  have hloop := h.relocated.withEntry r.2
  simp only [size_addSilent, size_addEmpty] at hentry
  rw [← h.state] at hloop
  have hlower := ht (r.1.withEntry r.2, r.1.size + 1) (r'.1.withEntry r'.2, r'.1.size + 1)
    ⟨hloop, hentry.symm⟩
  dsimp only at hlower ⊢
  generalize t.lower (r.1.withEntry r.2) (r.1.size + 1) = u at hlower ⊢
  generalize t.lower (r'.1.withEntry r'.2) (r'.1.size + 1) = u' at hlower ⊢
  have hback := (hlower.addSilent (r.1.size + 1)).addSilent u.2 r.1.size
  rw [← hlower.state, hentry, h.relocated.place_size] at hback
  exact ⟨hback, h.relocated.place_size.symm⟩

/-- A tree adds to a copy what it adds to the original. -/
theorem lowersAlike {P : Tree → Prop} {t : Tree} (ht : t.Forall P) (n₀ : NFA V) : t.LowersAlike n₀ := by
  induction ht with
  | @characters rs _ =>
      intro r r' h
      have hadd := h.relocated.addEmpty.addEdges r.2 rs r.1.size
      rw [h.relocated.place_size, ← h.state] at hadd
      rw [lower, lower]
      exact ⟨hadd, h.relocated.place_size.symm⟩
  | sequence _ _ ih =>
      intro r r' h
      rw [lower, lower]
      exact alike_lowerSequence ih h
  | choice _ _ ih =>
      intro r r' h
      have hchoice := relocated_lowerChoice ih h.relocated.addEmpty r.2 r.1.size
      rw [h.relocated.place_size, ← h.state] at hchoice
      rw [lower, lower]
      exact ⟨hchoice, h.relocated.place_size.symm⟩
  | @repetition t min max _ _ ih =>
      intro r r' h
      have hrequired := alike_repeat ih min h
      cases max with
      | some max =>
          rw [lower_bounded, lower_bounded]
          exact alike_optional ih (max - min) hrequired
      | none =>
          rw [lower_unbounded, lower_unbounded]
          exact alike_loop ih hrequired

end Tree

/-! ## Rules -/

namespace Compiler

open MaximalMunch.NFA

variable {V : Type} {d : Dialect} {c : Compiler V} {marked : List (Nat × Rule V)}

/-- No silent edge of a compiler leads to where a further rule is placed. -/
theorem relocated_new (h : c.automaton.Holds d start marked) :
    Relocated c.automaton (new d : Compiler V).automaton c.automaton := by
  refine Relocated.initial h.start_lt fun q t ht => ?_
  cases t with
  | zero =>
      exact h.start_source q none (.silent ht)
  | succ t =>
      have hlt := h.wellFormed.silent_target q _ ht
      simp only [place] at hlt
      omega

theorem relocated_insert (h : c.automaton.Holds d start marked) {t : Tree} (ht : t.Ordered) (value : V) :
    Relocated c.automaton ((new d).insert t value).automaton (c.insert t value).automaton := by
  have hnew := relocated_new h
  have hentry : Tree.Alike c.automaton
      ((new d : Compiler V).automaton.addEmpty.addSilent start (new d : Compiler V).automaton.size,
        (new d : Compiler V).automaton.size)
      (c.automaton.addEmpty.addSilent start c.automaton.size, c.automaton.size) :=
    ⟨hnew.addNext start, hnew.place_size.symm⟩
  exact (Tree.lowersAlike ht c.automaton _ _ hentry).withAccept value

theorem relocated_addEndOfText (h : c.automaton.Holds d start marked) (value : V) :
    Relocated c.automaton ((new d).addEndOfText value).automaton (c.addEndOfText value).automaton := by
  have hnew := relocated_new h
  have haccept := (hnew.addState (some value)).addEdges start [.point endMark] (new d : Compiler V).automaton.size
  rw [hnew.place_size] at haccept
  exact haccept

end Compiler

end MaximalMunch
