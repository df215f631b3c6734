import MaximalMunch.Proofs.Lowering

/-!
# What lowering leaves alone

A tree is lowered behind one state. No other state that was there is touched, this one only gets further
edges, and all edges that are added lead to new states, whatever tree it is and whatever the automaton was.

- `NFA.Frame`         : additions that leave one old state and enter new states only
- `NFA.DeadEnd`       : a state that nothing leaves
- `NFA.Attaches`      : additions between a state and a new dead end, or none at all
- `NFA.Gathers`       : the same with several parts that share the dead end
- `Tree.lower_attaches` : lowering, by induction on the tree
- `Tree.lower_frame`  : what lowering a tree does to each state

`NFA.Grows` is about steps and says nothing of an edge over an empty range; here each edge counts.
-/

namespace MaximalMunch

/-- The list `as'` goes on behind `as`, with elements that have the property `P`. -/
def Continues {α : Type} (P : α → Prop) (as as' : List α) : Prop :=
  ∃ more, as' = as ++ more ∧ ∀ a ∈ more, P a

namespace Continues

variable {α : Type} {P Q : α → Prop} {as bs cs : List α}

theorem refl (P : α → Prop) (as : List α) : Continues P as as := ⟨[], by simp, by simp⟩

theorem mono (hPQ : ∀ a, P a → Q a) (h : Continues P as bs) : Continues Q as bs := by
  obtain ⟨more, heq, hmore⟩ := h
  exact ⟨more, heq, fun a ha => hPQ a (hmore a ha)⟩

theorem trans (h : Continues P as bs) (h' : Continues P bs cs) : Continues P as cs := by
  obtain ⟨more, rfl, hmore⟩ := h
  obtain ⟨more', rfl, hmore'⟩ := h'
  refine ⟨more ++ more', List.append_assoc .., fun a ha => ?_⟩
  rcases List.mem_append.1 ha with ha | ha
  · exact hmore a ha
  · exact hmore' a ha

theorem of_nil (h : Continues P [] as) : ∀ a ∈ as, P a := by
  obtain ⟨more, rfl, hmore⟩ := h
  exact hmore

end Continues

namespace NFA

variable {V : Type}

/-- The number of a state that `n'` has in addition to those of `n`. -/
def New (n n' : NFA V) (q : Nat) : Prop := n.size ≤ q ∧ q < n'.size

@[simp] theorem new_addEdges (n n' : NFA V) (s : Nat) (rs : List Range) (t : Nat) :
    New n (n'.addEdges s rs t) = New n n' := by
  funext q
  simp [New]

@[simp] theorem new_addSilent (n n' : NFA V) (s t : Nat) : New n (n'.addSilent s t) = New n n' := by
  funext q
  simp [New]

/-- No state but `source` has changed, this one only has further edges, and what was added accepts no value
and leads to new states. -/
structure Frame (n n' : NFA V) (source : Nat) : Prop where
  size_le : n.size ≤ n'.size
  value? : ∀ q, n'.value? q = n.value? q
  edges : ∀ q, Continues (fun e : Edge => New n n' e.target) (n.edges q) (n'.edges q)
  silent : ∀ q, Continues (New n n') (n.silent q) (n'.silent q)
  edges_eq : ∀ q, q < n.size → q ≠ source → n'.edges q = n.edges q
  silent_eq : ∀ q, q < n.size → q ≠ source → n'.silent q = n.silent q

namespace Frame

variable {n n₁ n₂ : NFA V} {s a t : Nat}

theorem refl (n : NFA V) (s : Nat) : Frame n n s where
  size_le := Nat.le_refl _
  value? := fun _ => rfl
  edges := fun _ => .refl _ _
  silent := fun _ => .refl _ _
  edges_eq := fun _ _ _ => rfl
  silent_eq := fun _ _ _ => rfl

/-- Additions behind the source or a new state, after other ones. -/
theorem trans (h : Frame n n₁ s) (h' : Frame n₁ n₂ a) (ha : a = s ∨ n.size ≤ a) : Frame n n₂ s := by
  have hle := h.size_le
  have hle' := h'.size_le
  have hearly : ∀ q, New n n₁ q → New n n₂ q := fun q hq => ⟨hq.1, Nat.lt_of_lt_of_le hq.2 hle'⟩
  have hlate : ∀ q, New n₁ n₂ q → New n n₂ q := fun q hq => ⟨Nat.le_trans hle hq.1, hq.2⟩
  -- The later additions start at a state that either is the source or was not there at first.
  have hne : ∀ q, q < n.size → q ≠ s → q < n₁.size ∧ q ≠ a := by
    intro q hq hs
    refine ⟨by omega, ?_⟩
    rintro rfl
    omega
  refine
    { size_le := Nat.le_trans hle hle'
      value? := fun q => (h'.value? q).trans (h.value? q)
      edges := fun q => ((h.edges q).mono fun e => hearly e.target).trans
        ((h'.edges q).mono fun e => hlate e.target)
      silent := fun q => ((h.silent q).mono hearly).trans ((h'.silent q).mono hlate)
      edges_eq := fun q hq hs => ?_
      silent_eq := fun q hq hs => ?_ }
  · obtain ⟨hlt, hqa⟩ := hne q hq hs
    rw [h'.edges_eq q hlt hqa, h.edges_eq q hq hs]
  · obtain ⟨hlt, hqa⟩ := hne q hq hs
    rw [h'.silent_eq q hlt hqa, h.silent_eq q hq hs]

theorem addEmpty (n : NFA V) (s : Nat) : Frame n n.addEmpty s where
  size_le := by simp
  value? := value?_addEmpty n
  edges := fun q => by
    rw [edges_addEmpty]
    exact .refl _ _
  silent := fun q => by
    rw [silent_addEmpty]
    exact .refl _ _
  edges_eq := fun q _ _ => edges_addEmpty n q
  silent_eq := fun q _ _ => silent_addEmpty n q

theorem addEdges (h : Frame n n₁ s) (ha : a = s ∨ n.size ≤ a) (ht : New n n₁ t) (rs : List Range) :
    Frame n (n₁.addEdges a rs t) s := by
  have hne : ∀ q, q < n.size → q ≠ s → ¬ (q = a ∧ a < n₁.size) := by omega
  refine
    { size_le := by simpa using h.size_le
      value? := fun q => by simpa using h.value? q
      edges := fun q => ?_
      silent := fun q => ?_
      edges_eq := fun q hq hs => ?_
      silent_eq := fun q hq hs => by simpa using h.silent_eq q hq hs }
  · rw [new_addEdges]
    refine (h.edges q).trans ⟨_, edges_addEdges n₁ a rs t q, fun e he => ?_⟩
    split at he
    · obtain ⟨r, -, rfl⟩ := List.mem_map.1 he
      exact ht
    · exact absurd he (by simp)
  · simpa using h.silent q
  · rw [edges_addEdges, if_neg (hne q hq hs), List.append_nil, h.edges_eq q hq hs]

theorem addSilent (h : Frame n n₁ s) (ha : a = s ∨ n.size ≤ a) (ht : New n n₁ t) :
    Frame n (n₁.addSilent a t) s := by
  refine
    { size_le := by simpa using h.size_le
      value? := fun q => by simpa using h.value? q
      edges := fun q => by simpa using h.edges q
      silent := fun q => ?_
      edges_eq := fun q hq hs => by simpa using h.edges_eq q hq hs
      silent_eq := fun q hq hs => ?_ }
  · rw [new_addSilent]
    refine (h.silent q).trans ⟨_, silent_addSilent n₁ a t q, fun x hx => ?_⟩
    split at hx
    · obtain rfl : x = t := by simpa using hx
      exact ht
    · exact absurd hx (by simp)
  · rw [silent_addSilent, if_neg (by omega), List.append_nil, h.silent_eq q hq hs]

/-- Any other old state is as it was. -/
theorem getElem?_eq (h : Frame n n₁ s) {q : Nat} (hq : q < n.size) (hne : q ≠ s) :
    n₁.states[q]? = n.states[q]? := by
  have hq' : q < n₁.size := Nat.lt_of_lt_of_le hq h.size_le
  have hvalue := h.value? q
  have hedges := h.edges_eq q hq hne
  have hsilent := h.silent_eq q hq hne
  unfold NFA.size at hq hq'
  simp only [NFA.value?, NFA.edges, NFA.silent, Array.getElem?_eq_getElem, hq, hq'] at hvalue hedges hsilent ⊢
  congr 1
  cases hx : n₁.states[q]
  cases hy : n.states[q]
  simp only [hx, hy, Array.toList_inj] at hvalue hedges hsilent
  simp only [hvalue, hedges, hsilent]

end Frame

/-! ## Dead ends -/

/-- A state that nothing leaves. -/
structure DeadEnd (n : NFA V) (q : Nat) : Prop where
  lt_size : q < n.size
  edges : n.edges q = []
  silent : n.silent q = []

namespace DeadEnd

variable {n n' : NFA V} {q a : Nat}

theorem addEmpty (n : NFA V) : DeadEnd n.addEmpty n.size where
  lt_size := by simp
  edges := by rw [edges_addEmpty, edges_eq_nil (Nat.le_refl _)]
  silent := by rw [silent_addEmpty, silent_eq_nil (Nat.le_refl _)]

/-- Additions elsewhere leave a dead end as it is. -/
theorem frame (h : n.DeadEnd q) (hf : Frame n n' a) (hne : q ≠ a) : n'.DeadEnd q where
  lt_size := Nat.lt_of_lt_of_le h.lt_size hf.size_le
  edges := (hf.edges_eq q h.lt_size hne).trans h.edges
  silent := (hf.silent_eq q h.lt_size hne).trans h.silent

theorem addSilent (h : n.DeadEnd q) (hne : q ≠ a) (t : Nat) : (n.addSilent a t).DeadEnd q where
  lt_size := by simpa using h.lt_size
  edges := by simpa using h.edges
  silent := by
    rw [silent_addSilent, h.silent, if_neg fun hq => hne hq.1]
    rfl

theorem addEdges (h : n.DeadEnd q) (hne : q ≠ a) (rs : List Range) (t : Nat) :
    (n.addEdges a rs t).DeadEnd q where
  lt_size := by simpa using h.lt_size
  edges := by
    rw [edges_addEdges, h.edges, if_neg fun hq => hne hq.1]
    rfl
  silent := by simpa using h.silent

end DeadEnd

/-! ## Parts -/

/-- What was added leads from `source` to a new state that nothing leaves, unless nothing was added. -/
structure Attaches (n n' : NFA V) (source last : Nat) : Prop extends Frame n n' source where
  last_cases : (last = source ∧ n' = n) ∨ (n.size ≤ last ∧ n'.DeadEnd last)

/-- What was added gathers in a new state that nothing leaves. -/
structure Gathers (n n' : NFA V) (source next : Nat) : Prop extends Frame n n' source where
  new : n.size ≤ next
  deadEnd : n'.DeadEnd next

namespace Attaches

variable {n n₁ n₂ : NFA V} {s a e : Nat}

theorem refl (n : NFA V) (s : Nat) : Attaches n n s s := ⟨.refl n s, Or.inl ⟨rfl, rfl⟩⟩

theorem last_source_or_new (h : Attaches n n₁ s e) : e = s ∨ n.size ≤ e :=
  h.last_cases.imp And.left And.left

theorem last_lt (h : Attaches n n₁ s e) (hs : s < n.size) : e < n₁.size := by
  rcases h.last_cases with ⟨rfl, -⟩ | ⟨-, hend⟩
  · exact Nat.lt_of_lt_of_le hs h.size_le
  · exact hend.lt_size

theorem append (h : Attaches n n₁ s a) (h' : Attaches n₁ n₂ a e) : Attaches n n₂ s e where
  toFrame := h.toFrame.trans h'.toFrame h.last_source_or_new
  last_cases := by
    rcases h'.last_cases with ⟨rfl, rfl⟩ | ⟨hle, hend⟩
    · exact h.last_cases
    · exact Or.inr ⟨Nat.le_trans h.size_le hle, hend⟩

end Attaches

namespace Gathers

variable {n n₁ n₂ : NFA V} {s a e next : Nat}

theorem attaches (h : Gathers n n₁ s next) : Attaches n n₁ s next :=
  ⟨h.toFrame, Or.inr ⟨h.new, h.deadEnd⟩⟩

theorem addEmpty (n : NFA V) (s : Nat) : Gathers n n.addEmpty s n.size :=
  ⟨.addEmpty n s, Nat.le_refl _, .addEmpty n⟩

theorem addEdges (h : Gathers n n₁ s next) (hs : s < n.size) (rs : List Range) :
    Gathers n (n₁.addEdges s rs next) s next where
  toFrame := h.toFrame.addEdges (Or.inl rfl) ⟨h.new, h.deadEnd.lt_size⟩ rs
  new := h.new
  deadEnd := h.deadEnd.addEdges (Nat.ne_of_gt (Nat.lt_of_lt_of_le hs h.new)) rs next

/-- Lead a state to the common end, or to another new state. -/
theorem addSilent (h : Gathers n n₁ s next) (ha : a = s ∨ n.size ≤ a) (hne : a ≠ next) {t : Nat}
    (ht : New n n₁ t) : Gathers n (n₁.addSilent a t) s next where
  toFrame := h.toFrame.addSilent ha ht
  new := h.new
  deadEnd := h.deadEnd.addSilent hne.symm t

/-- Add a part elsewhere. Its end is not the common end. -/
theorem attach (h : Gathers n n₁ s next) (h' : Attaches n₁ n₂ a e) (ha : a = s ∨ n.size ≤ a)
    (hne : a ≠ next) : Gathers n n₂ s next ∧ (e = s ∨ n.size ≤ e) ∧ e ≠ next := by
  refine ⟨⟨h.toFrame.trans h'.toFrame ha, h.new, h.deadEnd.frame h'.toFrame hne.symm⟩, ?_⟩
  rcases h'.last_cases with ⟨rfl, -⟩ | ⟨hle, -⟩
  · exact ⟨ha, hne⟩
  · have := h.size_le
    have := h.deadEnd.lt_size
    exact ⟨Or.inr (by omega), by omega⟩

theorem withEntry (n : NFA V) {s : Nat} (hs : s < n.size) : Gathers n (n.withEntry s) s n.size := by
  have hne : s ≠ n.size := Nat.ne_of_lt hs
  have hdirect : Gathers n (n.addEmpty.addSilent s n.size) s n.size :=
    (addEmpty n s).addSilent (Or.inl rfl) hne ⟨Nat.le_refl _, by simp⟩
  have hentry := (hdirect.attach (addEmpty _ _).attaches (Or.inl rfl) hne).1
  exact hentry.addSilent (Or.inl rfl) hne ⟨by simp, by simp⟩

end Gathers

end NFA

namespace Tree

open MaximalMunch.NFA

variable {V : Type}

/-! ## Lowering -/

theorem Forall.of_forall {P : Tree → Prop} (h : ∀ t, P t) : ∀ t : Tree, t.Forall P
  | .characters _ => .characters (h _)
  | .sequence ts => .sequence (h _) fun t _ => of_forall h t
  | .choice ts => .choice (h _) fun t _ => of_forall h t
  | .repetition t _ _ => .repetition (h _) (of_forall h t)

/-- Lowering attaches the tree to any state of any automaton. -/
def LowersBehind (V : Type) (t : Tree) : Prop :=
  ∀ (n : NFA V) (s : Nat), s < n.size → Attaches n (t.lower n s).1 s (t.lower n s).2

theorem attaches_lowerSequence {ts : List Tree} (h : ∀ t ∈ ts, t.LowersBehind V) (n : NFA V) (s : Nat)
    (hs : s < n.size) : Attaches n (lowerSequence ts n s).1 s (lowerSequence ts n s).2 := by
  induction ts generalizing n s with
  | nil =>
      exact .refl n s
  | cons t ts ih =>
      have hfirst := h t (by simp) n s hs
      exact hfirst.append (ih (fun u hu => h u (by simp [hu])) _ _ (hfirst.last_lt hs))

theorem gathers_lowerChoice {ts : List Tree} (h : ∀ t ∈ ts, t.LowersBehind V) {n₀ n : NFA V} {s next : Nat}
    (hs : s < n₀.size) (hn : Gathers n₀ n s next) : Gathers n₀ (lowerChoice ts n s next) s next := by
  induction ts generalizing n with
  | nil =>
      exact hn
  | cons t ts ih =>
      have hne : s ≠ next := Nat.ne_of_lt (Nat.lt_of_lt_of_le hs hn.new)
      have hchild := h t (by simp) n s (Nat.lt_of_lt_of_le hs hn.size_le)
      obtain ⟨hpart, hlast, hlast_ne⟩ := hn.attach hchild (Or.inl rfl) hne
      exact ih (fun u hu => h u (by simp [hu]))
        (hpart.addSilent hlast hlast_ne ⟨hpart.new, hpart.deadEnd.lt_size⟩)

section Copies

variable {t : Tree} (ht : t.LowersBehind V) {n : NFA V} {s : Nat} (hs : s < n.size)

include ht hs

theorem attaches_required (k : Nat) :
    Attaches n (Nat.repeat (fun r : NFA V × Nat => t.lower r.1 r.2) k (n, s)).1 s
      (Nat.repeat (fun r : NFA V × Nat => t.lower r.1 r.2) k (n, s)).2 := by
  induction k with
  | zero =>
      exact .refl n s
  | succ k ih =>
      exact ih.append (ht _ _ (ih.last_lt hs))

/-- The optional copies gather in the common end, each behind the one before. -/
theorem gathers_optional (k : Nat) :
    let r := Nat.repeat (copyTo t n.size) k (n.addEmpty.addSilent s n.size, s)
    Gathers n r.1 s n.size ∧ (r.2 = s ∨ n.size ≤ r.2) ∧ r.2 ≠ n.size ∧ r.2 < r.1.size := by
  induction k with
  | zero =>
      have hne : s ≠ n.size := Nat.ne_of_lt hs
      exact ⟨(Gathers.addEmpty n s).addSilent (Or.inl rfl) hne ⟨Nat.le_refl _, by simp⟩, Or.inl rfl, hne,
        by simp [Nat.repeat]; omega⟩
  | succ k ih =>
      -- A copy ends in a state that is not the common end, so the end may lead there.
      obtain ⟨hgathers, hlast, hne, hlt⟩ := ih
      have hcopy := ht _ _ hlt
      obtain ⟨hpart, hlast', hne'⟩ := hgathers.attach hcopy hlast hne
      refine ⟨hpart.addSilent hlast' hne' ⟨hpart.new, hpart.deadEnd.lt_size⟩, hlast', hne', ?_⟩
      simpa [Nat.repeat, copyTo] using hcopy.last_lt hlt

/-- The loop is entered at a state of its own, and left for the common end. -/
theorem gathers_loop :
    Gathers n
      (((t.lower (n.withEntry s) (n.size + 1)).1.addSilent
        (t.lower (n.withEntry s) (n.size + 1)).2 (n.size + 1)).addSilent
        (t.lower (n.withEntry s) (n.size + 1)).2 n.size) s n.size := by
  have hentry : n.size + 1 < (n.withEntry s).size := by simp
  obtain ⟨hpart, hlast, hne⟩ := (Gathers.withEntry n hs).attach (ht _ _ hentry)
    (Or.inr (Nat.le_succ _)) (Nat.succ_ne_self _)
  have hlt : n.size + 1 < (t.lower (n.withEntry s) (n.size + 1)).1.size :=
    Nat.lt_of_lt_of_le hentry (ht _ _ hentry).size_le
  have hback := hpart.addSilent hlast hne ⟨Nat.le_succ _, hlt⟩
  exact hback.addSilent hlast hne ⟨Nat.le_refl _, hback.deadEnd.lt_size⟩

end Copies

theorem lower_attaches (t : Tree) : t.LowersBehind V := by
  -- The trees of a list are no direct parts, so the induction is that on `Forall`, with nothing to hold.
  induction Forall.of_forall (P := fun _ => True) (fun _ => trivial) t with
  | @characters rs _ =>
      intro n s hs
      rw [lower]
      exact ((Gathers.addEmpty n s).addEdges hs rs).attaches
  | @sequence ts _ _ ih =>
      intro n s hs
      rw [lower]
      exact attaches_lowerSequence ih n s hs
  | @choice ts _ _ ih =>
      intro n s hs
      rw [lower]
      exact (gathers_lowerChoice ih hs (.addEmpty n s)).attaches
  | @repetition t min max _ _ ih =>
      intro n s hs
      have hreq := attaches_required ih hs min
      have hlast := hreq.last_lt hs
      cases max with
      | some max =>
          rw [lower_bounded]
          exact hreq.append (gathers_optional ih hlast (max - min)).1.attaches
      | none =>
          rw [lower_unbounded]
          exact hreq.append (gathers_loop ih hlast).attaches

/-- Lowering a tree behind a state leaves each other state that was there as it was. The state itself keeps
its value and only gets further edges, behind those that it had. The states that are added accept no value,
and all edges that are added lead to such states, never to older ones. The state that is answered is an
added one that nothing leaves, or the state itself, and this if and only if no state was added. -/
theorem lower_frame (t : Tree) (n : NFA V) {source : Nat} (hs : source < n.size) :
    let n' := (t.lower n source).1
    let last := (t.lower n source).2
    n.size ≤ n'.size ∧
    (∀ q, q < n.size → q ≠ source → n'.states[q]? = n.states[q]?) ∧
    n'.value? source = n.value? source ∧
    (∃ es, n'.edges source = n.edges source ++ es ∧
      ∀ e ∈ es, n.size ≤ e.target ∧ e.target < n'.size) ∧
    (∃ ts, n'.silent source = n.silent source ++ ts ∧ ∀ x ∈ ts, n.size ≤ x ∧ x < n'.size) ∧
    (∀ q, n.size ≤ q → q < n'.size → n'.value? q = none ∧
      (∀ e ∈ n'.edges q, n.size ≤ e.target ∧ e.target < n'.size) ∧
      ∀ x ∈ n'.silent q, n.size ≤ x ∧ x < n'.size) ∧
    ((n.size ≤ last ∧ last < n'.size ∧ n'.edges last = [] ∧ n'.silent last = []) ∨ last = source) ∧
    (last = source ↔ n'.size = n.size) := by
  intro n' last
  have h : Attaches n n' source last := lower_attaches t n source hs
  refine ⟨h.size_le, fun q hq hne => h.getElem?_eq hq hne, h.value? source, h.edges source, h.silent source,
    fun q hq _ => ⟨?_, ?_, ?_⟩, ?_, ?_⟩
  · rw [h.value? q, value?_eq_none hq]
  · have hedges := h.edges q
    rw [edges_eq_nil hq] at hedges
    exact hedges.of_nil
  · have hsilent := h.silent q
    rw [silent_eq_nil hq] at hsilent
    exact hsilent.of_nil
  · rcases h.last_cases with ⟨hlast, -⟩ | ⟨hle, hend⟩
    · exact Or.inr hlast
    · exact Or.inl ⟨hle, hend.lt_size, hend.edges, hend.silent⟩
  · rcases h.last_cases with ⟨hlast, heq⟩ | ⟨hle, hend⟩
    · exact iff_of_true hlast (by rw [heq])
    · have := hend.lt_size
      exact iff_of_false (by omega) (by omega)

/-- An empty sequence beside a loop, behind a state that has a loop and a neighbour of its own: the
neighbour stays as it is, and the loop of the tree is left at a new state. -/
theorem lower_frame_loop :
    let t : Tree := .choice [.sequence [], .repetition (.characters [.point 97]) 0 none]
    let n : NFA Nat := ((NFA.empty.addEmpty.addValue 5).addEdge 0 (.point 97) 0).addSilent 0 1
    0 < n.size ∧ (t.lower n 0).1.states[1]? = n.states[1]? ∧
      (∃ ts, (t.lower n 0).1.silent 0 = 1 :: ts ∧ ∀ x ∈ ts, 2 ≤ x) ∧ (t.lower n 0).2 ≠ 0 := by
  intro t n
  have hs : 0 < n.size := by decide
  have hold : n.silent 0 = [1] := by
    simp [n, silent_addSilent, addEdge, addValue]
  obtain ⟨-, hothers, -, -, ⟨ts, hsilent, hnew⟩, -, -, hlast⟩ := lower_frame t n hs
  rw [hold] at hsilent
  refine ⟨hs, hothers 1 (by decide) (by decide), ⟨ts, hsilent, fun x hx => (hnew x hx).1⟩, fun hzero => ?_⟩
  exact absurd (hlast.1 hzero) (by decide)

end Tree

end MaximalMunch
