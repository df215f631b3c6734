import MaximalMunch.Proofs.EdgeSearch

/-!
# Offered edges

Edges are offered to a state one after another. A state takes an edge that begins behind the last one it
has, and refuses any other one. So the edges that it has always ascend without overlaps, whatever it was
offered, and the binary search finds what a look at one edge after the other would find.

- `DFA.State.addEdge_cases`     : when an edge is taken, and what a refusal names
- `DFA.State.separate_offers`   : the edges stay separate, by induction on the offers
- `DFA.State.follow?_eq_find?`  : on separate edges the binary search agrees with a linear one
- `DFA.State.search_eq_scan`    : what a state answers after any offers
-/

namespace MaximalMunch

namespace DFA

variable {es : List Edge} {e : Edge} {p : Int}

namespace Separate

/-- One more edge, behind the last one. -/
theorem concat (h : Separate es) (he : e.Proper) (hlast : ∀ l, es.getLast? = some l → l.hi < e.lo) :
    Separate (es ++ [e]) where
  proper := by
    intro a ha
    rcases List.mem_append.1 ha with ha | ha
    · exact h.proper a ha
    · obtain rfl : a = e := by simpa using ha
      exact he
  ascending := by
    refine List.pairwise_append.2 ⟨h.ascending, List.pairwise_singleton _ e, fun a ha b hb => ?_⟩
    obtain rfl : b = e := by simpa using hb
    rcases List.eq_nil_or_concat es with rfl | ⟨init, l, rfl⟩
    · exact absurd ha (by simp)
    · rw [List.concat_eq_append] at h ha hlast
      have hl : l.hi < b.lo := hlast l (by simp)
      rcases List.mem_append.1 ha with ha | ha
      · -- An edge before the last one ends before this begins, and so before it ends.
        have hal : a.hi < l.lo := (List.pairwise_append.1 h.ascending).2.2 a ha l (by simp)
        have hproper : l.lo ≤ l.hi := h.proper l (by simp)
        omega
      · obtain rfl : a = l := by simpa using ha
        exact hl

/-- No two entries lie over one code point. -/
theorem countP_covers_le_one (h : Separate es) : es.countP (fun e => e.Covers p) ≤ 1 := by
  induction es with
  | nil =>
      exact Nat.zero_le 1
  | cons e es ih =>
      by_cases hp : e.Covers p
      · -- All later edges begin behind the code point.
        have hnone : es.countP (fun e => e.Covers p) = 0 := by
          refine List.countP_eq_zero.2 fun b hb hcov => ?_
          have hlt : e.hi < b.lo := (List.pairwise_cons.1 h.ascending).1 b hb
          have hbegin : b.lo ≤ p := (of_decide_eq_true hcov).1
          have hend : p ≤ e.hi := hp.2
          omega
        exact Nat.le_of_eq (by rw [List.countP_cons_of_pos (by simpa using hp), hnone])
      · rw [List.countP_cons_of_neg (by simpa using hp)]
        exact ih h.tail

end Separate

namespace State

variable {V : Type} {s s' : State V} {o : Overlap}

/-! ## One edge -/

/-- An edge is refused if it begins at or before the end of the last one, and taken else. -/
theorem addEdge_cases (s : State V) (e : Edge) :
    (∃ l, s.edges.back? = some l ∧ e.lo ≤ l.hi ∧ s.addEdge e = .error ⟨e.toRange, l.toRange⟩) ∨
      ((∀ l, s.edges.back? = some l → l.hi < e.lo) ∧
        s.addEdge e = .ok { s with edges := s.edges.push e }) := by
  rw [addEdge]
  cases hlast : s.edges.back? with
  | none =>
      exact Or.inr ⟨by simp, rfl⟩
  | some l =>
      by_cases hlt : l.hi < e.lo
      · exact Or.inr ⟨by simpa using hlt, if_pos hlt⟩
      · exact Or.inl ⟨l, rfl, by omega, if_neg hlt⟩

theorem addEdge_eq_error_iff :
    s.addEdge e = .error o ↔
      ∃ l, s.edges.back? = some l ∧ e.lo ≤ l.hi ∧ o = ⟨e.toRange, l.toRange⟩ := by
  rcases addEdge_cases s e with ⟨l, hl, hle, herror⟩ | ⟨hlt, hok⟩
  · rw [herror, hl]
    constructor
    · intro h
      exact ⟨l, rfl, hle, (Except.error.inj h).symm⟩
    · rintro ⟨l', hl', -, rfl⟩
      rw [Option.some.inj hl']
  · rw [hok]
    constructor
    · intro h
      exact absurd h (by simp)
    · rintro ⟨l, hl, hle, -⟩
      have := hlt l hl
      omega

theorem addEdge_eq_ok_iff :
    s.addEdge e = .ok s' ↔
      (∀ l, s.edges.back? = some l → l.hi < e.lo) ∧ s' = { s with edges := s.edges.push e } := by
  rcases addEdge_cases s e with ⟨l, hl, hle, herror⟩ | ⟨hlt, hok⟩
  · rw [herror]
    constructor
    · intro h
      exact absurd h (by simp)
    · rintro ⟨hlt, -⟩
      have := hlt l hl
      omega
  · rw [hok]
    constructor
    · intro h
      exact ⟨hlt, (Except.ok.inj h).symm⟩
    · rintro ⟨-, rfl⟩
      rfl

theorem separate_addEdge (h : Separate s.edges.toList) (he : e.Proper) (hok : s.addEdge e = .ok s') :
    Separate s'.edges.toList := by
  rcases addEdge_eq_ok_iff.1 hok with ⟨hlast, rfl⟩
  rw [Array.toList_push]
  exact h.concat he fun l hl => hlast l (Array.getLast?_toList s.edges ▸ hl)

/-! ## Edges in turn -/

/-- Behind its own edges a state has those that it took, and no other ones. -/
theorem edges_offers (s : State V) (es : List Edge) :
    (s.offers es).edges.toList = s.edges.toList ++ s.taken es := by
  -- The induction is over all states, as an edge that is taken changes the state for the later ones.
  induction es generalizing s with
  | nil =>
      simp [offers, taken]
  | cons e es ih =>
      rw [offers, taken]
      cases hadd : s.addEdge e with
      | error o =>
          exact ih s
      | ok s' =>
          obtain rfl := (addEdge_eq_ok_iff.1 hadd).2
          simpa using ih { s with edges := s.edges.push e }

/-- Separate edges stay so, whatever is offered. -/
theorem separate_offers (h : Separate s.edges.toList) (hes : ∀ e ∈ es, e.Proper) :
    Separate (s.offers es).edges.toList := by
  induction es generalizing s with
  | nil =>
      exact h
  | cons e es ih =>
      rcases List.forall_mem_cons.1 hes with ⟨he, hes⟩
      rw [offers]
      cases hadd : s.addEdge e with
      | error o =>
          exact ih h hes
      | ok s' =>
          exact ih (separate_addEdge h he hadd) hes

/-! ## The search -/

/-- On separate edges the binary search finds the edge that a linear search finds. -/
theorem follow?_eq_find? (h : Separate s.edges.toList) (p : Int) :
    s.follow? p = (s.edges.toList.find? fun e => e.Covers p).map Edge.target := by
  cases hfind : s.edges.toList.find? fun e => e.Covers p with
  | none =>
      have hnone : ∀ e ∈ s.edges.toList, ¬ e.Covers p := by
        simpa using List.find?_eq_none.1 hfind
      rw [Option.map_none, Option.eq_none_iff_forall_ne_some]
      intro t ht
      rcases (follow?_eq_some_iff h).1 ht with ⟨e, he, hp, -⟩
      exact hnone e he hp
  | some e =>
      -- The first edge over the code point is the only one, so it is the one that is followed.
      have hp : e.Covers p := by simpa using List.find?_some hfind
      exact (follow?_eq_some_iff h).2 ⟨e, List.mem_of_find?_eq_some hfind, hp, rfl⟩

/-- Edges with code points are offered to a new state, which takes some and refuses others. Afterwards

* no two of the edges that it took lie over one code point,
* the binary search answers what a scan of these edges from front to back answers,
* so it leads to the target of the edge over the code point, and nowhere if there is none, and
* one more edge is refused if and only if it begins at or before the end of the last one that was taken;
  the refusal names both.
-/
theorem search_eq_scan (v : Option V) (es : List Edge) (hes : ∀ e ∈ es, e.lo ≤ e.hi) :
    let new : State V := { value := v }
    (∀ p, (new.taken es).countP (fun e => e.Covers p) ≤ 1) ∧
    (∀ p, (new.offers es).follow? p = ((new.taken es).find? fun e => e.Covers p).map Edge.target) ∧
    (∀ p t, (new.offers es).follow? p = some t ↔ ∃ e ∈ new.taken es, e.Covers p ∧ e.target = t) ∧
    (∀ p, (new.offers es).follow? p = none ↔ ∀ e ∈ new.taken es, ¬ e.Covers p) ∧
    ∀ e o, (new.offers es).addEdge e = .error o ↔
      ∃ l, (new.taken es).getLast? = some l ∧ e.lo ≤ l.hi ∧ o = ⟨e.toRange, l.toRange⟩ := by
  intro new
  have hedges : (new.offers es).edges.toList = new.taken es := edges_offers new es
  have hseparate : Separate (new.offers es).edges.toList := separate_offers .nil hes
  rw [← hedges]
  refine ⟨fun p => hseparate.countP_covers_le_one, follow?_eq_find? hseparate,
    fun p t => follow?_eq_some_iff hseparate, fun p => ?_, fun e o => ?_⟩
  · rw [follow?_eq_find? hseparate, Option.map_eq_none_iff, List.find?_eq_none]
    simp
  · rw [Array.getLast?_toList]
    exact addEdge_eq_error_iff

/-- Edges that touch, of which two begin too early. -/
theorem search_eq_scan_touching :
    let es : List Edge := [⟨⟨10, 20⟩, 1⟩, ⟨⟨20, 30⟩, 2⟩, ⟨⟨21, 21⟩, 3⟩, ⟨⟨5, 9⟩, 4⟩, ⟨⟨40, 50⟩, 5⟩]
    let s := ({} : State Nat).offers es
    (∀ e ∈ es, e.lo ≤ e.hi) ∧
      ({} : State Nat).taken es = [⟨⟨10, 20⟩, 1⟩, ⟨⟨21, 21⟩, 3⟩, ⟨⟨40, 50⟩, 5⟩] ∧
      s.follow? 20 = some 1 ∧ s.follow? 21 = some 3 ∧ s.follow? 22 = none ∧
      s.addEdge ⟨⟨50, 60⟩, 6⟩ = .error ⟨⟨50, 60⟩, ⟨40, 50⟩⟩ := by
  intro es s
  have hes : ∀ e ∈ es, e.lo ≤ e.hi := by decide
  have htaken : ({} : State Nat).taken es = [⟨⟨10, 20⟩, 1⟩, ⟨⟨21, 21⟩, 3⟩, ⟨⟨40, 50⟩, 5⟩] := by decide
  have h := search_eq_scan (V := Nat) none es hes
  simp only [htaken] at h
  exact ⟨hes, htaken, (h.2.2.1 20 1).2 (by decide), (h.2.2.1 21 3).2 (by decide),
    (h.2.2.2.1 22).2 (by decide), (h.2.2.2.2 _ _).2 ⟨_, rfl, by decide, rfl⟩⟩

end State

end DFA

end MaximalMunch
