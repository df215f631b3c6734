import Mathlib.Data.List.Sort
import MaximalMunch.Compiler.Basic
import MaximalMunch.Proofs.Configuration
import MaximalMunch.Proofs.PatternTree

/-!
# What a compiler has collected

Every pattern and every value for the end of the text is a rule. The automaton of a compiler has one
accepting state for each of its rules, in the order in which they were added, and the words on the paths to
this state are the words that the rule accepts.

- `Rule`, `Rule.Accepts`   : a rule and its words
- `Compiler.Collects`      : the compilers to which certain rules have been added
- `NFA.Holds`              : an automaton with one accepting state for each of certain rules
- `Compiler.Collects.holds`: the automaton of a compiler holds the rules, by induction on the calls
- `NFA.Holds.carries_iff`, `NFA.Holds.valuesOf_eq` : what a word carries, and in which order
-/

namespace MaximalMunch

open CodePoint

/-- A word in the language of a pattern text. -/
def Dialect.Matches (d : Dialect) (pattern : String) (w : List Int) : Prop :=
  ∃ t, d.parse pattern = .ok t ∧ t.Spells w

/-- What one call adds to a compiler. -/
inductive Rule (V : Type) where
  | pattern (text : String) (value : V)
  | endOfText (value : V)

namespace Rule

variable {V : Type}

def value : Rule V → V
  | pattern _ v => v
  | endOfText v => v

/-- The words of a rule. The end of a text is read as one end mark. -/
def Accepts (d : Dialect) : Rule V → List Int → Prop
  | pattern text _, w => d.Matches text w
  | endOfText _, w => w = [endMark]

end Rule

/-- The compiler to which the rules have been added one after another. -/
inductive Compiler.Collects {V : Type} (d : Dialect) : List (Rule V) → Compiler V → Prop where
  | new : Collects d [] (Compiler.new d)
  | pattern {rules : List (Rule V)} {c c' : Compiler V} {text : String} {value : V} :
      Collects d rules c → c.add text value = (c', none) →
        Collects d (rules ++ [.pattern text value]) c'
  | endOfText {rules : List (Rule V)} {c : Compiler V} {value : V} :
      Collects d rules c → Collects d (rules ++ [.endOfText value]) (c.addEndOfText value)

namespace NFA

variable {V : Type}

/-- The accepting states of `n` are those of `marked`, each for the rule beside it. -/
structure Holds (d : Dialect) (start : Nat) (n : NFA V) (marked : List (Nat × Rule V)) : Prop where
  wellFormed : n.WellFormed
  start_lt : start < n.size
  start_source : ∀ x l, ¬ n.Step x l start
  ascending : marked.Pairwise fun a b => a.1 < b.1
  marked_lt : ∀ m ∈ marked, m.1 < n.size
  value?_iff : ∀ q v, n.value? q = some v ↔ ∃ m ∈ marked, m.1 = q ∧ m.2.value = v
  path_iff : ∀ m ∈ marked, ∀ w, Path n.Step start w m.1 ↔ m.2.Accepts d w

namespace Holds

variable {d : Dialect} {start : Nat} {n n' : NFA V} {marked : List (Nat × Rule V)}

/-- The words that lead to an old state stay the same: nothing new leads back to old states. -/
theorem path_grow_old_iff (h : n.Holds d start marked) (hg : Grows n n' start) {q : Nat}
    (hq : q < n.size) {w : List Int} : Path n'.Step start w q ↔ Path n.Step start w q :=
  Path.attach_old_iff (fun _ _ _ hstep => ⟨hstep.lt_size, h.wellFormed.step_lt hstep⟩)
    (fun x l y hadd => ⟨hg.leaves x l y hadd, (hg.enters x l y hadd).1⟩)
    (fun _ _ _ => hg.toExtends.step_iff) hq

/-- The words that lead to a new state are those of the part that was added. -/
theorem path_grow_new_iff (h : n.Holds d start marked) (hg : Grows n n' start) {q : Nat}
    (hq : n.size ≤ q) {w : List Int} : Path n'.Step start w q ↔ Path (Added n n') start w q := by
  rw [Path.attach_iff (fun _ _ _ hstep => ⟨hstep.lt_size, h.wellFormed.step_lt hstep⟩)
    (fun x l y hadd => ⟨hg.leaves x l y hadd, (hg.enters x l y hadd).1⟩)
    (fun _ _ _ => hg.toExtends.step_iff) h.start_lt h.start_lt (Or.inr hq)]
  -- Nothing leads back to the start, so there are no old steps in front.
  simp [Path.refl_iff_of_source h.start_source]

/-- One more accepting state, behind the start. -/
theorem grow (h : n.Holds d start marked) (hg : Grows n n' start)
    (hproper : n'.Ranges Range.Proper) {accept : Nat} {r : Rule V} (hge : n.size ≤ accept)
    (hlt : accept < n'.size)
    (hvalue : ∀ q, n'.value? q = if q = accept then some r.value else n.value? q)
    (hpath : ∀ w, Path (Added n n') start w accept ↔ r.Accepts d w) :
    n'.Holds d start (marked ++ [(accept, r)]) := by
  have hmem : ∀ m, m ∈ marked ++ [(accept, r)] ↔ m ∈ marked ∨ m = (accept, r) := by simp
  have hne : ∀ m ∈ marked, m.1 ≠ accept := by
    intro m hm
    have := h.marked_lt m hm
    omega
  refine
    { wellFormed := h.wellFormed.grow hg hproper
      start_lt := Nat.lt_of_lt_of_le h.start_lt hg.size_le
      start_source := fun x l hstep => ?_
      ascending := List.pairwise_append.2 ⟨h.ascending, List.pairwise_singleton _ _, fun a ha b hb => ?_⟩
      marked_lt := fun m hm => ?_
      value?_iff := fun q v => ?_
      path_iff := fun m hm w => ?_ }
  · rcases hg.toExtends.step_iff.1 hstep with hstep | hadd
    · exact h.start_source x l hstep
    · have := (hg.enters x l start hadd).1
      have := h.start_lt
      omega
  · obtain rfl : b = (accept, r) := by simpa using hb
    exact Nat.lt_of_lt_of_le (h.marked_lt a ha) hge
  · rcases (hmem m).1 hm with hm | rfl
    · exact Nat.lt_of_lt_of_le (h.marked_lt m hm) hg.size_le
    · exact hlt
  · rw [hvalue q]
    simp only [hmem]
    split
    · rename_i hq
      subst hq
      constructor
      · intro hv
        exact ⟨(q, r), Or.inr rfl, rfl, Option.some.inj hv⟩
      · rintro ⟨m, hm | rfl, hq, rfl⟩
        · exact absurd hq (hne m hm)
        · rfl
    · rename_i hq
      rw [h.value?_iff q v]
      constructor
      · rintro ⟨m, hm, hrest⟩
        exact ⟨m, Or.inl hm, hrest⟩
      · rintro ⟨m, hm | rfl, hrest⟩
        · exact ⟨m, hm, hrest⟩
        · exact absurd hrest.1.symm hq
  · rcases (hmem m).1 hm with hm | rfl
    · rw [h.path_grow_old_iff hg (h.marked_lt m hm)]
      exact h.path_iff m hm w
    · rw [h.path_grow_new_iff hg hge]
      exact hpath w

/-! ## What a word carries -/

/-- A word carries the values of the rules that accept it. -/
theorem carries_iff (h : n.Holds d start marked) {w : List Int} {v : V} :
    n.Carries start w v ↔ ∃ r ∈ marked.map Prod.snd, r.Accepts d w ∧ r.value = v := by
  constructor
  · rintro ⟨q, hq, hv⟩
    rcases (h.value?_iff q v).1 hv with ⟨m, hm, rfl, hmv⟩
    exact ⟨m.2, List.mem_map_of_mem hm, (h.path_iff m hm w).1 hq, hmv⟩
  · rintro ⟨r, hr, hacc, hv⟩
    rcases List.mem_map.1 hr with ⟨m, hm, rfl⟩
    exact ⟨m.1, (h.path_iff m hm w).2 hacc, (h.value?_iff m.1 v).2 ⟨m, hm, rfl, hv⟩⟩

open Classical in
/-- The values of a configuration are those of the rules that accept its word, in the order of the
rules. -/
theorem valuesOf_eq (h : n.Holds d start marked) {w : List Int} {c : List Nat}
    (hc : n.Configuration start w c) :
    n.valuesOf c = ((marked.map Prod.snd).filter fun r => r.Accepts d w).map Rule.value := by
  have hvalue : ∀ m ∈ marked, n.value? m.1 = some m.2.value :=
    fun m hm => (h.value?_iff m.1 _).2 ⟨m, hm, rfl, rfl⟩
  -- Both lists of states ascend and have the same members.
  have hstates : c.filter (fun q => (n.value? q).isSome) =
      (marked.filter fun m => m.2.Accepts d w).map Prod.fst := by
    refine (hc.ascending.filter _).eq_of_mem_iff ?_ fun q => ?_
    · exact List.pairwise_map.2 (h.ascending.filter _)
    · rw [List.mem_filter, hc.mem_iff, List.mem_map]
      constructor
      · rintro ⟨hq, hsome⟩
        rcases Option.isSome_iff_exists.1 hsome with ⟨v, hv⟩
        rcases (h.value?_iff q v).1 hv with ⟨m, hm, rfl, -⟩
        exact ⟨m, List.mem_filter.2 ⟨hm, by simpa using (h.path_iff m hm w).1 hq⟩, rfl⟩
      · rintro ⟨m, hm, rfl⟩
        rcases List.mem_filter.1 hm with ⟨hm, hacc⟩
        refine ⟨(h.path_iff m hm w).2 (by simpa using hacc), ?_⟩
        rw [hvalue m hm]
        rfl
  -- States without a value contribute nothing.
  have hdrop : c.filterMap n.value? = (c.filter fun q => (n.value? q).isSome).filterMap n.value? := by
    rw [List.filterMap_filter]
    refine List.filterMap_congr fun q _ => ?_
    cases n.value? q <;> rfl
  rw [valuesOf, hdrop, hstates, List.filter_map, List.map_map, List.filterMap_map,
    ← List.filterMap_eq_map]
  refine List.filterMap_congr fun m hm => ?_
  exact hvalue m (List.mem_filter.1 hm).1

end Holds

/-! ## New accepting states -/

section Accept

variable {n n₁ : NFA V} {s e : Nat} {L : List Int → Prop}

/-- A state that accepts a value, behind the last state of a part. -/
def withAccept (n : NFA V) (last : Nat) (v : V) : NFA V := (n.addValue v).addSilent last n.size

theorem size_withAccept (n : NFA V) (last : Nat) (v : V) : (n.withAccept last v).size = n.size + 1 := by
  simp [withAccept]

theorem value?_withAccept (n : NFA V) (last : Nat) (v : V) (q : Nat) :
    (n.withAccept last v).value? q = if q = n.size then some v else n.value? q := by
  rw [withAccept, value?_addSilent, addValue, value?_addState]

theorem grows_withAccept (hs : n.Anchored s) (h : Spans n n₁ s e L) (v : V) :
    Grows n (n₁.withAccept e v) s :=
  (h.toGrows.addState (some v)).addSilent hs h.last_old_or_new h.size_le (by simp)

/-- The words that lead to the new state are those of the part. -/
theorem path_withAccept_iff (hs : n.Anchored s) (h : Spans n n₁ s e L) (v : V) (w : List Int) :
    Path (Added n (n₁.withAccept e v)) s w n₁.size ↔ L w := by
  have hlast := h.last_lt
  have hadded : ∀ x l y, Added n (n₁.withAccept e v) x l y ↔
      Added n n₁ x l y ∨ (x = e ∧ l = none ∧ y = n₁.size) := by
    intro x l y
    have hext : Extends n (n₁.addValue v) := h.toExtends.trans (Extends.addState n₁ (some v))
    rw [withAccept, added_addSilent_iff hext (Grows.fresh hs h.last_old_or_new h.size_le), addValue,
      added_addState_iff]
    refine or_congr_right ?_
    constructor
    · rintro ⟨-, -, hx, hl, hy⟩
      exact ⟨hx, hl, hy⟩
    · rintro ⟨hx, hl, hy⟩
      exact ⟨by simp; omega, by omega, hx, hl, hy⟩
  have hsink : ∀ l y, ¬ Added n n₁ n₁.size l y := by
    intro l y hadd
    exact absurd hadd.lt_size (by omega)
  have hsource : ∀ x l, ¬ Added n n₁ x l n₁.size := by
    intro x l hadd
    exact absurd (h.enters x l n₁.size hadd).2 (by omega)
  have hlt := hs.1
  have hle := h.size_le
  rw [Path.join_iff hadded hsink (by omega) (by omega), h.path_iff]
  constructor
  · rintro (hw | hw)
    · -- The new state is not reached over old edges.
      have := (Path.eq_of_source hsource hw).1
      omega
    · exact hw
  · exact Or.inr

end Accept

end NFA

namespace Compiler

open MaximalMunch.NFA

variable {V : Type} {d : Dialect}

theorem holds_new : (Compiler.new d : Compiler V).automaton.Holds d start [] where
  wellFormed := WellFormed.empty.addState none
  start_lt := by
    show 0 < NFA.empty.addEmpty.size
    simp
  start_source := fun _ _ => not_step_initial
  ascending := List.Pairwise.nil
  marked_lt := by simp
  value?_iff := by
    intro q v
    show NFA.empty.addEmpty.value? q = some v ↔ _
    simp
  path_iff := by simp

/-- A tree that is inserted is a part behind the start, over the words of the tree. -/
theorem spans_insert {n : NFA V} (hs : n.Anchored start) {t : Tree} (ht : t.Ordered) :
    Spans n (t.lower (n.addEmpty.addSilent start n.size) n.size).1 start
      (t.lower (n.addEmpty.addSilent start n.size) n.size).2 t.Spells := by
  have hentry := (Joins.direct hs).toSpans
  have hlower := Tree.lower_spans ht (n.addEmpty.addSilent start n.size) n.size
    (hentry.toGrows.anchored hs (Or.inr (Nat.le_refl _)) hentry.last_lt)
  refine (hentry.append hlower hs.1).congr fun w => ?_
  simp

theorem holds_insert {c : Compiler V} {marked : List (Nat × Rule V)}
    (h : c.automaton.Holds d start marked) {text : String} {t : Tree} (ht : d.parse text = .ok t)
    (value : V) :
    ∃ accept, (c.insert t value).automaton.Holds d start (marked ++ [(accept, .pattern text value)]) := by
  have hsound := Dialect.parse_sound ht
  have hs := h.wellFormed.anchored h.start_lt
  have hspans := spans_insert hs hsound.ordered
  have hranges := Tree.ranges_lower hsound.proper
    ((Ranges.addEmpty h.wellFormed.edge_proper).addSilent start c.automaton.size) c.automaton.size
  have hins : (c.insert t value).automaton = NFA.withAccept
      (t.lower (c.automaton.addEmpty.addSilent start c.automaton.size) c.automaton.size).1
      (t.lower (c.automaton.addEmpty.addSilent start c.automaton.size) c.automaton.size).2 value := rfl
  rw [hins]
  -- Only what `hspans` and `hranges` say about the lowered tree matters from here on.
  generalize t.lower (c.automaton.addEmpty.addSilent start c.automaton.size) c.automaton.size = r at *
  refine ⟨r.1.size, h.grow (grows_withAccept hs hspans value)
    ((hranges.addState (some value)).addSilent r.2 r.1.size) hspans.size_le (by simp [size_withAccept])
    (fun q => ?_) fun w => ?_⟩
  · rw [value?_withAccept, hspans.value?]
    rfl
  · rw [path_withAccept_iff hs hspans]
    constructor
    · intro hw
      exact ⟨t, ht, hw⟩
    · rintro ⟨u, hu, hw⟩
      obtain rfl : t = u := by simpa [ht] using hu
      exact hw

theorem grows_insert {c : Compiler V} (hs : c.automaton.Anchored start) {t : Tree} (ht : t.Ordered) (value : V) :
    Grows c.automaton (c.insert t value).automaton start := grows_withAccept hs (spans_insert hs ht) value

theorem automaton_addEndOfText (c : Compiler V) (value : V) :
    (c.addEndOfText value).automaton =
      (c.automaton.addState (some value)).addEdges start [.point endMark] c.automaton.size := rfl

theorem grows_addEndOfText (c : Compiler V) (value : V) :
    Grows c.automaton (c.addEndOfText value).automaton start :=
  ((Grows.refl c.automaton start).addState (some value)).addEdges (Or.inl rfl) (Nat.le_refl _) (by simp)
    [.point endMark]

theorem holds_addEndOfText {c : Compiler V} {marked : List (Nat × Rule V)}
    (h : c.automaton.Holds d start marked) (value : V) :
    ∃ accept, (c.addEndOfText value).automaton.Holds d start
      (marked ++ [(accept, .endOfText value)]) := by
  have hmark : ∀ r ∈ [Range.point endMark], r.Proper := by decide
  have hgrows := grows_addEndOfText c value
  rw [automaton_addEndOfText] at hgrows ⊢
  refine ⟨c.automaton.size, h.grow hgrows
    ((Ranges.addState h.wellFormed.edge_proper (some value)).addEdges start hmark c.automaton.size)
    (Nat.le_refl _) (by simp) (fun q => ?_) fun w => ?_⟩
  · rw [value?_addEdges, value?_addState]
    rfl
  · have hpath := path_addEdges_addValue_iff h.start_lt [.point endMark] value w
    rw [addValue] at hpath
    rw [hpath]
    simp [Range.covers_point_iff, Rule.Accepts]

/-- A pattern with a tree that fits is added. -/
theorem add_eq_ok {c : Compiler V} {text : String} {t : Tree} (ht : c.dialect.parse text = .ok t)
    (hfits : c.fits t = true) (value : V) : c.add text value = (c.insert t value, none) := by
  simp only [add, ht, hfits, if_true]

/-- A pattern that was added has a tree that fits. -/
theorem exists_insert_of_add {c c' : Compiler V} {text : String} {value : V}
    (h : c.add text value = (c', none)) :
    ∃ t, c.dialect.parse text = .ok t ∧ c.fits t = true ∧ c.insert t value = c' := by
  unfold add at h
  split at h
  · exact absurd h (by simp)
  · rename_i t ht
    split at h
    · rename_i hfits
      exact ⟨t, ht, hfits, (Prod.mk.inj h).1⟩
    · exact absurd h (by simp)

/-- A pattern that is refused leaves the compiler as it was. -/
theorem fst_add_of_error {c : Compiler V} {text : String} {value : V} {e : CompileError V}
    (h : (c.add text value).2 = some e) : (c.add text value).1 = c := by
  unfold add at h ⊢
  split at h
  · rfl
  · split at h
    · exact absurd h (by simp)
    · rename_i hfits
      rw [if_neg hfits]

/-- A call is refused or not. -/
theorem add_cases (c : Compiler V) (text : String) (value : V) :
    (∃ e, c.add text value = (c, some e)) ∨ ∃ c', c.add text value = (c', none) := by
  cases he : (c.add text value).2 with
  | none =>
      exact Or.inr ⟨(c.add text value).1, Prod.ext rfl he⟩
  | some e =>
      exact Or.inl ⟨e, Prod.ext (fst_add_of_error he) he⟩

/-- Patterns that are all added become rules in their order. -/
theorem Collects.addAll {rules : List (Rule V)} {c : Compiler V} (h : Collects d rules c)
    {ps : List (String × V)} (hps : (c.addAll ps).2 = none) :
    Collects d (rules ++ ps.map fun p => .pattern p.1 p.2) (c.addAll ps).1 := by
  induction ps generalizing rules c with
  | nil =>
      simpa [Compiler.addAll] using h
  | cons p ps ih =>
      rw [Compiler.addAll] at hps ⊢
      rcases c.add_cases p.1 p.2 with ⟨e, hadd⟩ | ⟨c', hadd⟩
      · rw [hadd] at hps
        exact absurd hps (by simp)
      · rw [hadd] at hps ⊢
        simpa using ih (.pattern h hadd) hps

/-- The automaton of a compiler holds the rules that were added, in their order. -/
theorem Collects.holds {rules : List (Rule V)} {c : Compiler V} (h : Collects d rules c) :
    c.dialect = d ∧
      ∃ marked, c.automaton.Holds d start marked ∧ marked.map Prod.snd = rules := by
  -- Each call adds one accepting state behind the start and leaves the earlier ones as they are.
  induction h with
  | new =>
      exact ⟨rfl, [], holds_new, rfl⟩
  | @pattern rules c c' text value _ hadd ih =>
      rcases ih with ⟨rfl, marked, hheld, rfl⟩
      rcases exists_insert_of_add hadd with ⟨t, ht, -, rfl⟩
      rcases holds_insert hheld ht value with ⟨accept, hnew⟩
      exact ⟨rfl, _, hnew, by simp⟩
  | @endOfText rules c value _ ih =>
      rcases ih with ⟨rfl, marked, hheld, rfl⟩
      rcases holds_addEndOfText hheld value with ⟨accept, hnew⟩
      exact ⟨rfl, _, hnew, by simp⟩

end Compiler

end MaximalMunch
