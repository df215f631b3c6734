/-!
# Paths

Automata are compared by the words on their paths. A step relation is kept abstract here: states are
numbers, and a step reads one code point or none.

- `Path`             : a chain of steps and the word that they read
- `Path.confine`     : a path stays in a set of states that no step leaves
- `Path.first_exit`  : a path that does leave has a first step that does
- `Path.attach_iff`  : steps over new states, attached at one old state, prolong the paths to that state
- `Path.join_iff`    : a silent step to a common end adds the paths to the state that it leaves
- `Path.loop_iff`    : a part that leads back to its entry is passed any number of times

The last three carry the composition of automata.
-/

namespace MaximalMunch

/-- `Path T s w t`: steps of `T` lead from `s` to `t` and read the word `w`. -/
inductive Path (T : Nat → Option Int → Nat → Prop) : Nat → List Int → Nat → Prop where
  | nil (s : Nat) : Path T s [] s
  | step {s t u : Nat} {l : Option Int} {w : List Int} :
      T s l t → Path T t w u → Path T s (l.toList ++ w) u

namespace Path

variable {T A U : Nat → Option Int → Nat → Prop} {s t u : Nat} {l : Option Int} {v w : List Int}

/-! ## Chains of steps -/

theorem single (h : T s l t) : Path T s l.toList t := by
  simpa using Path.step h (Path.nil t)

theorem append (h : Path T s v t) (h' : Path T t w u) : Path T s (v ++ w) u := by
  induction h with
  | nil s =>
      exact h'
  | step hstep _ ih =>
      rw [List.append_assoc]
      exact Path.step hstep (ih h')

theorem mono (hTU : ∀ x l y, T x l y → U x l y) (h : Path T s w t) : Path U s w t := by
  induction h with
  | nil s =>
      exact Path.nil s
  | step hstep _ ih =>
      exact Path.step (hTU _ _ _ hstep) ih

theorem split_append (h : Path T s (v ++ w) u) : ∃ t, Path T s v t ∧ Path T t w u := by
  generalize hx : v ++ w = x at h
  induction h generalizing v with
  | nil s =>
      rcases List.append_eq_nil_iff.1 hx with ⟨rfl, rfl⟩
      exact ⟨s, Path.nil s, Path.nil s⟩
  | step hstep hrest ih =>
      rename_i a b c l x
      cases l with
      | none =>
          rcases ih (by simpa using hx) with ⟨t, hv, hw⟩
          exact ⟨t, Path.step hstep hv, hw⟩
      | some p =>
          -- The step reads the first code point of the whole word.
          cases v with
          | nil =>
              -- The cut lies in front of the step.
              have hw : w = p :: x := by simpa using hx
              refine ⟨a, Path.nil a, ?_⟩
              rw [hw]
              exact Path.step hstep hrest
          | cons q v =>
              have hcons : q = p ∧ v ++ w = x := by simpa using hx
              rcases hcons with ⟨rfl, htail⟩
              rcases ih htail with ⟨t, hv, hw⟩
              exact ⟨t, Path.step hstep hv, hw⟩

theorem split_cons {p : Int} (h : Path T s (p :: w) u) :
    ∃ a b, Path T s [] a ∧ T a (some p) b ∧ Path T b w u := by
  generalize hx : p :: w = x at h
  induction h with
  | nil s =>
      exact absurd hx (by simp)
  | step hstep hrest ih =>
      rename_i c d e l x
      cases l with
      | none =>
          rcases ih (by simpa using hx) with ⟨a, b, ha, hb, hw⟩
          exact ⟨a, b, Path.step hstep ha, hb, hw⟩
      | some q =>
          have hcons : p = q ∧ w = x := by simpa using hx
          rcases hcons with ⟨rfl, rfl⟩
          exact ⟨c, d, Path.nil c, hstep, hrest⟩

/-- The last code point of a word is read by one step, with silent steps around it. -/
theorem snoc_iff {p : Int} :
    Path T s (w ++ [p]) u ↔ ∃ a b, Path T s w a ∧ T a (some p) b ∧ Path T b [] u := by
  constructor
  · intro h
    rcases split_append h with ⟨t, hw, hp⟩
    rcases split_cons hp with ⟨a, b, ha, hstep, hb⟩
    refine ⟨a, b, ?_, hstep, hb⟩
    simpa using append hw ha
  · rintro ⟨a, b, hw, hstep, hb⟩
    exact append hw (Path.step hstep hb)

/-! ## Ends and beginnings -/

/-- A path from a state that no step leaves has no step. -/
theorem eq_of_sink (hs : ∀ l x, ¬ T s l x) (h : Path T s w t) : t = s ∧ w = [] := by
  cases h with
  | nil =>
      exact ⟨rfl, rfl⟩
  | step hstep _ =>
      exact absurd hstep (hs _ _)

/-- A path to a state that no step enters has no step. -/
theorem eq_of_source (ht : ∀ x l, ¬ T x l t) (h : Path T s w t) : s = t ∧ w = [] := by
  induction h with
  | nil s =>
      exact ⟨rfl, rfl⟩
  | step hstep _ ih =>
      rcases ih ht with ⟨rfl, -⟩
      exact absurd hstep (ht _ _)

/-- A path from a state back to itself has no step if no step enters this state. -/
theorem refl_iff_of_source (ht : ∀ x l, ¬ T x l t) : Path T t w t ↔ w = [] := by
  constructor
  · intro h
    exact (eq_of_source ht h).2
  · rintro rfl
    exact Path.nil t

/-! ## Regions of states -/

/-- A path stays where no step leads out. -/
theorem confine {P : Nat → Prop} (hP : ∀ x l y, P x → U x l y → T x l y ∧ P y)
    (h : Path U s w t) (hs : P s) : Path T s w t ∧ P t := by
  induction h with
  | nil s =>
      exact ⟨Path.nil s, hs⟩
  | step hstep _ ih =>
      rcases hP _ _ _ hs hstep with ⟨hT, hy⟩
      rcases ih hy with ⟨hpath, ht⟩
      exact ⟨Path.step hT hpath, ht⟩

/-- A path either stays in a region, or it has a first step that leads out of it. -/
theorem first_exit {P : Nat → Prop} (hP : ∀ x l y, P x → U x l y → (T x l y ∧ P y) ∨ A x l y)
    (h : Path U s w u) (hs : P s) :
    (Path T s w u ∧ P u) ∨
      ∃ a l b v₁ v₂, w = v₁ ++ (l.toList ++ v₂) ∧ Path T s v₁ a ∧ P a ∧ A a l b ∧ Path U b v₂ u := by
  induction h with
  | nil s =>
      exact Or.inl ⟨Path.nil s, hs⟩
  | step hstep hrest ih =>
      rename_i x y z l w
      rcases hP _ _ _ hs hstep with ⟨hT, hy⟩ | hA
      · rcases ih hy with ⟨hpath, hz⟩ | ⟨a, l', b, v₁, v₂, hw, hpath, ha, hA, hb⟩
        · exact Or.inl ⟨Path.step hT hpath, hz⟩
        · refine Or.inr ⟨a, l', b, l.toList ++ v₁, v₂, ?_, Path.step hT hpath, ha, hA, hb⟩
          rw [hw, List.append_assoc]
      · exact Or.inr ⟨x, l, y, [], w, rfl, Path.nil x, hs, hA, hrest⟩

/-! ## Attaching new states

`T` has the states below `k`; `A` leads from the state `a` and from states beyond to states beyond. -/

section Attach

variable {k a : Nat} (hT : ∀ x l y, T x l y → x < k ∧ y < k)
  (hA : ∀ x l y, A x l y → (x = a ∨ k ≤ x) ∧ k ≤ y) (hU : ∀ x l y, U x l y ↔ T x l y ∨ A x l y)

include hT hA hU

theorem attach_beyond (h : Path U s w t) (hs : k ≤ s) : Path A s w t ∧ k ≤ t := by
  refine confine (fun x l y hx hstep => ?_) h hs
  rcases (hU x l y).1 hstep with hstep | hstep
  · have := (hT x l y hstep).1
    omega
  · exact ⟨hstep, (hA x l y hstep).2⟩

/-- No new path leads to an old state. -/
theorem attach_old_iff (ht : t < k) : Path U s w t ↔ Path T s w t := by
  constructor
  · intro h
    induction h with
    | nil s =>
        exact Path.nil s
    | step hstep hrest ih =>
        rcases (hU _ _ _).1 hstep with hstep | hstep
        · exact Path.step hstep (ih ht)
        · -- Behind a new step the path stays with the new states, and `t` is not one of them.
          have := (attach_beyond hT hA hU hrest (hA _ _ _ hstep).2).2
          omega
  · exact mono fun x l y h => (hU x l y).2 (Or.inl h)

/-- A path from an old state to a new one goes through the state where the new ones are attached. -/
theorem attach_iff (ha : a < k) (hs : s < k) (ht : t = a ∨ k ≤ t) :
    Path U s w t ↔ ∃ v₁ v₂, w = v₁ ++ v₂ ∧ Path T s v₁ a ∧ Path A a v₂ t := by
  constructor
  · intro h
    have hexit : ∀ x l y, x < k → U x l y → (T x l y ∧ y < k) ∨ A x l y := by
      intro x l y _ hstep
      rcases (hU x l y).1 hstep with hstep | hstep
      · exact Or.inl ⟨hstep, (hT x l y hstep).2⟩
      · exact Or.inr hstep
    -- The first new step cuts the path; it can only leave from `a`.
    rcases first_exit hexit h hs with ⟨hpath, hlt⟩ | ⟨b, l, c, v₁, v₂, hw, hpath, hb, hstep, hrest⟩
    · rcases ht with rfl | ht
      · exact ⟨w, [], by simp, hpath, Path.nil t⟩
      · omega
    · rcases hA b l c hstep with ⟨rfl | hk, hc⟩
      · exact ⟨v₁, l.toList ++ v₂, hw, hpath,
          Path.step hstep (attach_beyond hT hA hU hrest hc).1⟩
      · omega
  · rintro ⟨v₁, v₂, rfl, h₁, h₂⟩
    exact append (mono (fun x l y h => (hU x l y).2 (Or.inl h)) h₁)
      (mono (fun x l y h => (hU x l y).2 (Or.inr h)) h₂)

end Attach

/-! ## Joining in a common end -/

section Join

variable {e next : Nat} (hU : ∀ x l y, U x l y ↔ T x l y ∨ (x = e ∧ l = none ∧ y = next))
  (hsink : ∀ l y, ¬ T next l y) (he : e ≠ next)

include hU hsink he

theorem join_sink (l : Option Int) (y : Nat) : ¬ U next l y := by
  intro h
  rcases (hU next l y).1 h with h | ⟨h, -⟩
  · exact hsink l y h
  · exact he h.symm

/-- A path before the common end has only old steps. -/
theorem join_other_iff (ht : t ≠ next) : Path U s w t ↔ Path T s w t := by
  constructor
  · intro h
    induction h with
    | nil s =>
        exact Path.nil s
    | step hstep hrest ih =>
        rcases (hU _ _ _).1 hstep with hstep | ⟨-, -, rfl⟩
        · exact Path.step hstep (ih ht)
        · exact absurd (eq_of_sink (join_sink hU hsink he) hrest).1 ht
  · exact mono fun x l y h => (hU x l y).2 (Or.inl h)

theorem join_iff (hs : s ≠ next) : Path U s w next ↔ Path T s w next ∨ Path T s w e := by
  constructor
  · intro h
    generalize hx : next = x at h
    induction h with
    | nil s =>
        exact absurd hx.symm hs
    | step hstep hrest ih =>
        rename_i a b c l w
        subst hx
        by_cases hb : b = next
        · -- This step is the last one.
          subst hb
          rcases eq_of_sink (join_sink hU hsink he) hrest with ⟨-, rfl⟩
          rcases (hU a l b).1 hstep with hstep | ⟨rfl, rfl, -⟩
          · exact Or.inl (Path.step hstep (Path.nil b))
          · exact Or.inr (Path.nil a)
        · have hT : T a l b := by
            rcases (hU a l b).1 hstep with hstep | ⟨-, -, h⟩
            · exact hstep
            · exact absurd h hb
          rcases ih hb rfl with h | h
          · exact Or.inl (Path.step hT h)
          · exact Or.inr (Path.step hT h)
  · rintro (h | h)
    · exact mono (fun x l y h => (hU x l y).2 (Or.inl h)) h
    · have hlast : U e none next := (hU e none next).2 (Or.inr ⟨rfl, rfl, rfl⟩)
      simpa using append (mono (fun x l y h => (hU x l y).2 (Or.inl h)) h) (single hlast)

end Join

/-! ## Loops

`A` leads from `entry` and from states beyond to states beyond. Its end `e` leads back to the entry, and
on to `next`, which lies before the entry. -/

section Loop

variable {entry next e k : Nat} (hA : ∀ x l y, A x l y → (x = entry ∨ k ≤ x) ∧ k ≤ y)
  (hU : ∀ x l y, x = entry ∨ k ≤ x → (U x l y ↔
    A x l y ∨ (x = e ∧ l = none ∧ ((e ≠ entry ∧ y = entry) ∨ y = next))))
  (hsink : ∀ l y, ¬ U next l y) (hne : next ≠ entry) (hlt : next < k) (he : e = entry ∨ k ≤ e)

include hA hU hsink hne hlt

/-- A path out of the loop finishes a round and then makes whole rounds. -/
theorem loop_rounds (h : Path U s w next) (hs : s = entry ∨ k ≤ s) :
    ∃ v ws, w = v ++ List.flatten ws ∧ Path A s v e ∧ ∀ u ∈ ws, Path A entry u e := by
  generalize hx : next = x at h
  induction h with
  | nil s =>
      subst hx
      rcases hs with hs | hs
      · exact absurd hs hne
      · omega
  | step hstep hrest ih =>
      rename_i a b c l w
      subst hx
      -- The step lies in the part, leads back to the entry, or leads out.
      rcases (hU a l b hs).1 hstep with hstep | ⟨rfl, rfl, ⟨-, rfl⟩ | rfl⟩
      · rcases ih (Or.inr (hA a l b hstep).2) rfl with ⟨v, ws, rfl, hv, hws⟩
        exact ⟨l.toList ++ v, ws, by simp, Path.step hstep hv, hws⟩
      · rcases ih (Or.inl rfl) rfl with ⟨v, ws, rfl, hv, hws⟩
        refine ⟨[], v :: ws, by simp, Path.nil a, fun u hu => ?_⟩
        rcases List.mem_cons.1 hu with rfl | hu
        · exact hv
        · exact hws u hu
      · rcases eq_of_sink hsink hrest with ⟨-, rfl⟩
        exact ⟨[], [], rfl, Path.nil a, fun u hu => absurd hu (by simp)⟩

include he

theorem loop_iff :
    Path U entry w next ↔ ∃ ws, ws ≠ [] ∧ (∀ u ∈ ws, Path A entry u e) ∧ List.flatten ws = w := by
  constructor
  · intro h
    rcases loop_rounds hA hU hsink hne hlt h (Or.inl rfl) with ⟨v, ws, rfl, hv, hws⟩
    refine ⟨v :: ws, by simp, fun u hu => ?_, by simp⟩
    rcases List.mem_cons.1 hu with rfl | hu
    · exact hv
    · exact hws u hu
  · rintro ⟨ws, hne', hws, rfl⟩
    -- One round leads to `e`, whatever comes behind it.
    have hround : ∀ u, Path A entry u e → Path U entry u e := by
      intro u hu
      have hstay : ∀ x l y, x = entry ∨ k ≤ x → A x l y → U x l y ∧ (y = entry ∨ k ≤ y) :=
        fun x l y hx h => ⟨(hU x l y hx).2 (Or.inl h), Or.inr (hA x l y h).2⟩
      exact (confine hstay hu (Or.inl rfl)).1
    induction ws with
    | nil =>
        exact absurd rfl hne'
    | cons u ws ih =>
        have hu : Path U entry u e := hround u (hws u (by simp))
        rw [List.flatten_cons]
        refine append hu ?_
        by_cases hws' : ws = []
        · subst hws'
          exact single ((hU e none next he).2 (Or.inr ⟨rfl, rfl, Or.inr rfl⟩))
        · have hrest := ih hws' fun v hv => hws v (by simp [hv])
          -- A part that ends where it begins needs no silent step to go round again.
          by_cases hentry : e = entry
          · rw [hentry]
            exact hrest
          · exact Path.step ((hU e none entry he).2 (Or.inr ⟨rfl, rfl, Or.inl ⟨hentry, rfl⟩⟩)) hrest

end Loop

end Path

end MaximalMunch
