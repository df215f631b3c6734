import MaximalMunch.Proofs.Lookahead
import MaximalMunch.Proofs.Relocation
import MaximalMunch.Proofs.StateCount

/-!
# The order of the rules does not matter

The states of a compiler are numbered in the order in which its rules were added, and so are the states of its
matcher. But the languages of the states are the same in any order, and nothing else decides how many states a
matcher has and what it finds.

- `NFA.languages`               : of each state the words that lead to it
- `Holds.mem_languages_grow_iff` : a rule adds the languages that it has alone
- `Collects.mem_languages_iff`  : so they are those of the rules, by induction on the calls
- `Finished.size_congr`         : automata with the same languages have as many deterministic states
- `Finds.congr`                 : what there is to find depends on the members of the rules only
- `Scanner.Twins`               : two scanners at the same place, with `Twins.call` and `Twins.calls`
- `Compiler.compile_perm`       : rules in two orders make matchers that answer alike
-/

namespace MaximalMunch

open CodePoint
open Compiler (start)

namespace NFA

variable {V : Type}

/-! ## The languages of the states -/

/-- The languages of the states: of each state the words that lead to it from the start. -/
def languages (n : NFA V) : Set (Set (List Int)) := {L | ∃ q < n.size, L = {w | Path n.Step start w q}}

section Languages

variable {d : Dialect} {marked : List (Nat × Rule V)} {n g n' : NFA V}

/-- Nothing leads back to the start, so the empty word alone leads there. -/
theorem Holds.language_start (h : n.Holds d start marked) : {w | Path n.Step start w start} = {[]} := by
  ext w
  exact Path.refl_iff_of_source h.start_source

/-- A part that is added behind the start has the languages of its original. -/
theorem Holds.mem_languages_grow_iff (h : n.Holds d start marked) (hg : Grows n n' start)
    (hr : Relocated n g n') (hsource : ∀ x l, ¬ g.Step x l start) {L : Set (List Int)} :
    L ∈ n'.languages ↔ L ∈ n.languages ∨ L ∈ g.languages := by
  have hold : ∀ q < n.size, {w | Path n'.Step start w q} = {w | Path n.Step start w q} := by
    intro q hq
    ext w
    exact h.path_grow_old_iff hg hq
  have hnew : ∀ z, {w | Path n'.Step start w (place n.size (z + 1))} = {w | Path g.Step start w (z + 1)} := by
    intro z
    ext w
    have hle : n.size ≤ place n.size (z + 1) := Nat.le_add_right _ _
    have hcopy : Path (Added n n') (place n.size start) w (place n.size (z + 1)) ↔ Path g.Step start w (z + 1) :=
      hr.path_iff
    exact (h.path_grow_new_iff hg hle).trans hcopy
  constructor
  · rintro ⟨q, hq, rfl⟩
    by_cases hlt : q < n.size
    · exact Or.inl ⟨q, hlt, hold q hlt⟩
    · obtain ⟨z, rfl⟩ := exists_place (Nat.not_lt.1 hlt)
      exact Or.inr ⟨z + 1, hr.place_lt_iff.1 hq, hnew z⟩
  · rintro (⟨q, hq, rfl⟩ | ⟨z, hz, rfl⟩)
    · exact ⟨q, Nat.lt_of_lt_of_le hq hg.size_le, (hold q hq).symm⟩
    · cases z with
      | zero =>
          -- The start is common to both.
          have hstart : {w | Path g.Step start w start} = {[]} := by
            ext w
            exact Path.refl_iff_of_source hsource
          refine ⟨start, Nat.lt_of_lt_of_le h.start_lt hg.size_le, ?_⟩
          exact hstart.trans (h.language_start.symm.trans (hold start h.start_lt).symm)
      | succ z =>
          exact ⟨place n.size (z + 1), hr.place_lt_iff.2 hz, (hnew z).symm⟩

end Languages

/-! ## The number of deterministic states -/

section Counting

variable {n n' : NFA V} (hn : n.WellFormed) (hs : start < n.size)

include hn hs in
/-- Two words lead to the same states if they belong to the same languages. -/
theorem reachedBy_eq_iff {u v : List Int} :
    n.reachedBy start u = n.reachedBy start v ↔ ∀ L ∈ n.languages, u ∈ L ↔ v ∈ L := by
  constructor
  · rintro h L ⟨q, -, rfl⟩
    exact Set.ext_iff.1 h q
  · intro h
    ext q
    by_cases hq : q < n.size
    · exact h _ ⟨q, hq, rfl⟩
    · exact ⟨fun hu => absurd (reachedBy_subset hn hs u hu) hq,
        fun hv => absurd (reachedBy_subset hn hs v hv) hq⟩

include hn hs in
theorem reachedBy_nonempty_iff {w : List Int} :
    (n.reachedBy start w).Nonempty ↔ ∃ L ∈ n.languages, w ∈ L := by
  constructor
  · rintro ⟨q, hq⟩
    exact ⟨_, ⟨q, reachedBy_subset hn hs w hq, rfl⟩, hq⟩
  · rintro ⟨L, ⟨q, -, rfl⟩, hw⟩
    exact ⟨q, hw⟩

variable [DecidableEq V] {a a' : DFA V} {cs cs' : List (List Nat)} {index index' : Std.HashMap (List Nat) Nat}

include hn hs in
/-- The number of deterministic states depends on the languages only. -/
theorem Finished.size_congr (hn' : n'.WellFormed) (hs' : start < n'.size) (h : Finished n start a cs index)
    (h' : Finished n' start a' cs' index') (hlang : n.languages = n'.languages) : a.size = a'.size := by
  have hfollowed : ∀ w, (a.run? a.start w).isSome ↔ (a'.run? a'.start w).isSome := by
    intro w
    rw [h.isSome_run?_iff hn hs, h'.isSome_run?_iff hn' hs', reachedBy_nonempty_iff hn hs,
      reachedBy_nonempty_iff hn' hs', hlang]
  have hsame : ∀ u ∈ {w | (a.run? a.start w).isSome}, ∀ v ∈ {w | (a.run? a.start w).isSome},
      a.run? a.start u = a.run? a.start v ↔ a'.run? a'.start u = a'.run? a'.start v := by
    intro u hu v hv
    rw [h.run?_eq_iff hn hs hu hv, h'.run?_eq_iff hn' hs' ((hfollowed u).1 hu) ((hfollowed v).1 hv),
      reachedBy_eq_iff hn hs, reachedBy_eq_iff hn' hs', hlang]
  have hset : {w | (a.run? a.start w).isSome} = {w | (a'.run? a'.start w).isSome} := by
    ext w
    exact hfollowed w
  calc
    a.size = ((fun w => a.run? a.start w) '' {w | (a.run? a.start w).isSome}).ncard :=
      h.size_eq_ncard_run? hn hs
    _ = ((fun w => a'.run? a'.start w) '' {w | (a.run? a.start w).isSome}).ncard := ncard_image_congr hsame
    _ = a'.size := by rw [hset, h'.size_eq_ncard_run? hn' hs']

end Counting

end NFA

/-! ## Rules in any order -/

/-- The compiler to which the rule alone was added. A pattern that cannot be read adds nothing. -/
def Rule.alone {V : Type} (d : Dialect) : Rule V → Compiler V
  | .pattern text value =>
    match d.parse text with
    | .ok t => (Compiler.new d).insert t value
    | .error _ => Compiler.new d
  | .endOfText value => (Compiler.new d).addEndOfText value

namespace Compiler

open MaximalMunch.NFA

variable {V : Type} {d : Dialect} {rules rules' : List (Rule V)} {c c' : Compiler V}

/-- The languages of a compiler are those that its rules have alone, whatever their order. -/
theorem Collects.mem_languages_iff (h : Collects d rules c) {L : Set (List Int)} :
    L ∈ c.automaton.languages ↔ L = {[]} ∨ ∃ r ∈ rules, L ∈ (r.alone d).automaton.languages := by
  induction h with
  | new =>
      have hstart := (holds_new (V := V) (d := d)).language_start
      have hsize : (Compiler.new d : Compiler V).automaton.size = 1 := size_addEmpty _
      constructor
      · rintro ⟨q, hq, rfl⟩
        obtain rfl : q = start := by
          simp only [start]
          omega
        exact Or.inl hstart
      · rintro (rfl | ⟨r, hr, -⟩)
        · exact ⟨start, by simp [hsize, start], hstart.symm⟩
        · exact absurd hr (by simp)
  | @pattern rules c c' text value hrules hadd ih =>
      obtain ⟨rfl, marked, hheld, -⟩ := hrules.holds
      obtain ⟨t, ht, -, rfl⟩ := exists_insert_of_add hadd
      have hordered := (Dialect.parse_sound ht).ordered
      obtain ⟨accept, hsingle⟩ := holds_insert holds_new ht value
      have halone : (Rule.pattern text value).alone c.dialect = (Compiler.new c.dialect).insert t value := by
        simp only [Rule.alone, ht]
      rw [hheld.mem_languages_grow_iff
        (grows_insert (hheld.wellFormed.anchored hheld.start_lt) hordered value)
        (relocated_insert hheld hordered value) hsingle.start_source, ih]
      simp [or_and_right, exists_or, or_assoc, halone]
  | @endOfText rules c value hrules ih =>
      obtain ⟨rfl, marked, hheld, -⟩ := hrules.holds
      obtain ⟨accept, hsingle⟩ := holds_addEndOfText (holds_new (V := V) (d := c.dialect)) value
      rw [hheld.mem_languages_grow_iff (grows_addEndOfText c value) (relocated_addEndOfText hheld value)
        hsingle.start_source, ih]
      simp [or_and_right, exists_or, or_assoc, Rule.alone]

variable [DecidableEq V] {m m' : Matcher V}

section Reordered

variable (h : Collects d rules c) (h' : Collects d rules' c') (hmem : ∀ r, r ∈ rules ↔ r ∈ rules')
  (hm : c.compile = .ok m) (hm' : c'.compile = .ok m')

include h h' hmem hm hm'

theorem stateCount_congr : m.stateCount = m'.stateCount := by
  obtain ⟨-, marked, hheld, -⟩ := h.holds
  obtain ⟨-, marked', hheld', -⟩ := h'.holds
  obtain ⟨cs, index, hfinished⟩ :=
    determinize_finished hheld.wellFormed hheld.start_lt (determinize_of_compile hm)
  obtain ⟨cs', index', hfinished'⟩ :=
    determinize_finished hheld'.wellFormed hheld'.start_lt (determinize_of_compile hm')
  refine hfinished.size_congr hheld.wellFormed hheld.start_lt hheld'.wellFormed hheld'.start_lt hfinished' ?_
  ext L
  rw [h.mem_languages_iff, h'.mem_languages_iff]
  simp only [hmem]

theorem output?_congr (w : List Int) : m.automaton.output? w = m'.automaton.output? w := by
  apply Option.ext
  intro v
  rw [h.output?_iff hm, h'.output?_iff hm']
  simp only [hmem]

end Reordered

end Compiler

/-! ## Two scanners -/

namespace Scanner

variable {V : Type} [DecidableEq V] {d : Dialect} {rules rules' : List (Rule V)} {c c' : Compiler V}
  {m m' : Matcher V} {s s' : Scanner V}

omit [DecidableEq V] in
/-- What there is to find depends on the members of the rules, and on what the words are accepted for. -/
theorem Finds.congr (hmem : ∀ r, r ∈ rules ↔ r ∈ rules')
    (hout : ∀ w, m.automaton.output? w = m'.automaton.output? w) {r : List Char} {found : Option (Match V)}
    (h : Finds d rules m r found) : Finds d rules' m' r found := by
  have hmatched : ∀ u, Rule.Matched d rules u ↔ Rule.Matched d rules' u := by
    intro u
    simp only [Rule.Matched, Rule.mem_patterns_iff, hmem]
  have hends : ∀ v, v ∈ Rule.endValues rules ↔ v ∈ Rule.endValues rules' := by
    intro v
    simp only [Rule.mem_endValues_iff, hmem]
  cases h with
  | @longest u v hne hu hu' hlongest hv =>
      refine .longest hne hu ((hmatched u).1 hu') (fun u' hpre hu' => ?_) ((hout _).symm.trans hv)
      exact hlongest u' hpre ((hmatched u').2 hu')
  | endOfText hnil hv =>
      exact .endOfText hnil ((hends _).1 hv)
  | start hnone hend =>
      have hstart : m.automaton.value? m.automaton.start = m'.automaton.value? m'.automaton.start := hout []
      rw [hstart]
      refine .start (fun u hne hpre hu => hnone u hne hpre ((hmatched u).2 hu)) fun hnil => ?_
      refine List.eq_nil_iff_forall_not_mem.2 fun v hv => ?_
      rw [← hends, hend hnil] at hv
      exact absurd hv (by simp)

/-- A call exhausts the scanner at the end of the text, if this end has a value. -/
theorem exhausted_tryNext_iff (h : Compiler.Collects d rules c) (hm : c.compile = .ok m)
    (hs : Ready m.automaton s) (hx : s.exhausted = false) :
    s.tryNext.2.exhausted = true ↔ s.text = [] ∧ ∃ v, v ∈ Rule.endValues rules := by
  rcases tryNext_cases h hm hs.automaton hs.buffered hx with
    ⟨u, v, ⟨hne, hu, -⟩, -, -, htakes⟩ | ⟨hnil, v, hv, htakes⟩ | ⟨-, hend, hstays⟩
  · have htext : s.text ≠ [] := by
      intro hnil
      rw [hnil] at hu
      exact hne (List.prefix_nil.1 hu)
    simp [(htakes.of_prefix hu).2.2, htext]
  · simp only [(htakes.of_end hnil).2, true_iff]
    exact ⟨hnil, v, hv⟩
  · rw [hstays.exhausted]
    constructor
    · intro hfalse
      exact absurd hfalse (by simp)
    · rintro ⟨hnil, v, hv⟩
      rw [hend hnil] at hv
      exact absurd hv (by simp)

/-- Two scanners that stand at the same place in the same text, each with a matcher of its own. -/
structure Twins (m m' : Matcher V) (s s' : Scanner V) : Prop where
  ready : Ready m.automaton s
  ready' : Ready m'.automaton s'
  text : s.text = s'.text
  position : s.position = s'.position
  exhausted : s.exhausted = s'.exhausted
  stalled : s.stalled = s'.stalled

omit [DecidableEq V] in
theorem twins_scan (m m' : Matcher V) (text : String) : Twins m m' (m.scan text) (m'.scan text) where
  ready := ready_ofString _ _
  ready' := ready_ofString _ _
  text := rfl
  position := rfl
  exhausted := rfl
  stalled := rfl

namespace Twins

variable (h : Compiler.Collects d rules c) (h' : Compiler.Collects d rules' c')
  (hmem : ∀ r, r ∈ rules ↔ r ∈ rules') (hm : c.compile = .ok m) (hm' : c'.compile = .ok m')

include h h' hmem hm hm'

theorem tryNext (ht : Twins m m' s s') :
    s.tryNext.1 = s'.tryNext.1 ∧ Twins m m' s.tryNext.2 s'.tryNext.2 := by
  have hx' := ht.exhausted
  cases hx : s.exhausted with
  | true =>
      rw [hx] at hx'
      rw [tryNext_of_exhausted hx, tryNext_of_exhausted hx'.symm]
      exact ⟨rfl, ht⟩
  | false =>
      rw [hx] at hx'
      have hfinds := (finds_tryNext h hm ht.ready hx).congr hmem (Compiler.output?_congr h h' hmem hm hm')
      rw [ht.text] at hfinds
      have hfound : s.tryNext.1 = s'.tryNext.1 :=
        hfinds.unique h' hm' (finds_tryNext h' hm' ht.ready' hx'.symm)
      have hexhausted : s.tryNext.2.exhausted = s'.tryNext.2.exhausted := by
        rw [Bool.eq_iff_iff, exhausted_tryNext_iff h hm ht.ready hx,
          exhausted_tryNext_iff h' hm' ht.ready' hx'.symm, ht.text]
        simp only [Rule.mem_endValues_iff, hmem]
      refine ⟨hfound, ht.ready.tryNext, ht.ready'.tryNext, ?_, ?_, hexhausted, ?_⟩
      · -- Both have taken the same capture off the same text.
        have htext := s.tryNext_text
        rw [ht.text, ← s'.tryNext_text, hfound] at htext
        exact List.append_cancel_left htext
      · rw [position_tryNext h hm ht.ready hx, position_tryNext h' hm' ht.ready' hx'.symm, hfound, hexhausted,
          ht.position]
      · rw [stalled_tryNext, stalled_tryNext, ht.stalled]

theorem next (ht : Twins m m' s s') : s.next.1 = s'.next.1 ∧ Twins m m' s.next.2 s'.next.2 := by
  have hstalled' := ht.stalled
  cases hstalled : s.stalled with
  | true =>
      rw [hstalled] at hstalled'
      rw [next_of_stalled hstalled, next_of_stalled hstalled'.symm]
      exact ⟨rfl, ht⟩
  | false =>
      rw [hstalled] at hstalled'
      obtain ⟨hfound, htwins⟩ := ht.tryNext h h' hmem hm hm'
      rw [next_of_not_stalled hstalled, next_of_not_stalled hstalled'.symm]
      refine ⟨hfound, ⟨htwins.ready.automaton, htwins.ready.buffered⟩,
        ⟨htwins.ready'.automaton, htwins.ready'.buffered⟩, htwins.text, htwins.position, htwins.exhausted, ?_⟩
      rw [hfound, htwins.stalled]

theorem call (ht : Twins m m' s s') (k : Call) :
    (s.call k).1 = (s'.call k).1 ∧ Twins m m' (s.call k).2 (s'.call k).2 := by
  cases k with
  | tryNext =>
      exact ht.tryNext h h' hmem hm hm'
  | next =>
      exact ht.next h h' hmem hm hm'

/-- The same calls on both answer the same, and leave them at the same place. -/
theorem calls (ht : Twins m m' s s') (ks : List Call) :
    (s.calls ks).1 = (s'.calls ks).1 ∧ Twins m m' (s.calls ks).2 (s'.calls ks).2 := by
  induction ks generalizing s s' with
  | nil =>
      exact ⟨rfl, ht⟩
  | cons k ks ih =>
      obtain ⟨hfound, hcall⟩ := ht.call h h' hmem hm hm' k
      obtain ⟨hanswers, hcalls⟩ := ih hcall
      refine ⟨?_, hcalls⟩
      simp only [Scanner.calls, hfound, hanswers]

end Twins

end Scanner

namespace Compiler

variable {V : Type} [DecidableEq V] {d : Dialect} {rules rules' : List (Rule V)} {c c' : Compiler V}

/-- Rules that are added in two orders can be compiled in both or in neither. Both matchers have as many
states, and any calls on scanners of one text answer the same and leave them at the same position. -/
theorem compile_perm (h : Collects d rules c) (h' : Collects d rules' c') (hperm : rules.Perm rules') :
    ((∃ m, c.compile = .ok m) ↔ ∃ m', c'.compile = .ok m') ∧
    ∀ m m', c.compile = .ok m → c'.compile = .ok m' →
      m.stateCount = m'.stateCount ∧
      ∀ text ks,
        ((m.scan text).calls ks).1 = ((m'.scan text).calls ks).1 ∧
        ((m.scan text).calls ks).2.position = ((m'.scan text).calls ks).2.position := by
  have hmem : ∀ r, r ∈ rules ↔ r ∈ rules' := fun r => hperm.mem_iff
  refine ⟨?_, fun m m' hm hm' => ⟨stateCount_congr h h' hmem hm hm', fun text ks => ?_⟩⟩
  · rw [h.compile_ok_iff, h'.compile_ok_iff]
    simp only [hmem]
  · obtain ⟨hanswers, htwins⟩ := (Scanner.twins_scan m m' text).calls h h' hmem hm hm' ks
    exact ⟨hanswers, htwins.position⟩

/-- A wildcard before the end of the text and behind it: the states have other numbers, and that is all. -/
theorem compile_perm_wildcard :
    ∃ c c' : Compiler Nat, Collects .glob [.pattern "?" 1, .endOfText 2] c ∧
      Collects .glob [.endOfText 2, .pattern "?" 1] c' ∧ c.automaton ≠ c'.automaton ∧
      ∃ m m', c.compile = .ok m ∧ c'.compile = .ok m' ∧ m.stateCount = m'.stateCount ∧
        ((m.scan "b").calls [.next, .next, .tryNext]).1 = ((m'.scan "b").calls [.next, .next, .tryNext]).1 := by
  have hadd := add_eq_ok (c := (new .glob : Compiler Nat)) Dialect.parse_wildcard (by cbv) 1
  have hadd' := add_eq_ok (c := (new .glob : Compiler Nat).addEndOfText 2) Dialect.parse_wildcard (by cbv) 1
  have hrules : Collects .glob [.pattern "?" 1, .endOfText 2]
      (((new .glob : Compiler Nat).insert Tree.any 1).addEndOfText 2) := .endOfText (.pattern .new hadd)
  have hrules' : Collects .glob [.endOfText 2, .pattern "?" 1]
      (((new .glob : Compiler Nat).addEndOfText 2).insert Tree.any 1) := .pattern (.endOfText .new) hadd'
  have h := compile_perm hrules hrules' (List.Perm.swap _ _ [])
  refine ⟨_, _, hrules, hrules', by decide, ?_⟩
  obtain ⟨m, hm⟩ := hrules.exists_compile
  obtain ⟨m', hm'⟩ := h.1.1 ⟨m, hm⟩
  obtain ⟨hcount, hcalls⟩ := h.2 m m' hm hm'
  exact ⟨m, m', hm, hm', hcount, (hcalls "b" _).1⟩

end Compiler

end MaximalMunch
