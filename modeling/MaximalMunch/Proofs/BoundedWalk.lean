import MaximalMunch.Proofs.MatcherAlphabet

/-!
# Scanning ends

Behind the last character of a text there are end marks without limit. A walk still comes to an end: the
start is the only state with an edge over the end mark, nothing leads back to it, and nothing leads on behind
this edge. So a walk takes no more steps than there are characters left, or one over an end mark.

- `Walk.Ends`                : the walk that reads as many end marks as it likes, and where it ends
- `Walk.ends_advance`        : a walk that was not cut short ends there
- `NFA.Isolated.word_of_path` : the words that lead from the start of a compiler
- `Built.word_of_run?`       : the words that a matcher follows
- `Scanner.steps_walk_le`    : the length of a walk
- `Scanner.next_spec`        : what one match takes, and after which match there are no more
- `Scanner.length_collect_le` : how many matches there can be
- `Scanner.scanning_ends`    : all walks of a matcher end, and so does iteration
-/

namespace MaximalMunch

open CodePoint
open Compiler (start)

namespace Walk

variable {V : Type} {d : DFA V}

/-- The walk `w` over what was read ahead and then over the input, with any number of end marks, ends as `o`
says. -/
inductive Ends (d : DFA V) : Walk V → List Int → Input → List Int → Outcome V → Prop where
  | ahead_stop {w : Walk V} {p : Int} {ahead : List Int} {input : Input} {fresh : List Int} :
      w.step? d p = none → Ends d w (p :: ahead) input fresh ⟨w, input, fresh⟩
  | ahead_step {w w' : Walk V} {p : Int} {ahead : List Int} {input : Input} {fresh : List Int}
      {o : Outcome V} :
      w.step? d p = some w' → Ends d w' ahead input fresh o → Ends d w (p :: ahead) input fresh o
  | stop {w : Walk V} {input : Input} {fresh : List Int} :
      w.step? d input.read.1 = none →
        Ends d w [] input fresh ⟨w, input.read.2, input.read.1 :: fresh⟩
  | step {w w' : Walk V} {input : Input} {fresh : List Int} {o : Outcome V} :
      w.step? d input.read.1 = some w' → Ends d w' [] input.read.2 (input.read.1 :: fresh) o →
        Ends d w [] input fresh o

/-- A walk has one end. -/
theorem Ends.unique {w : Walk V} {ahead : List Int} {input : Input} {fresh : List Int}
    {o o' : Outcome V} (h : Ends d w ahead input fresh o) (h' : Ends d w ahead input fresh o') :
    o = o' := by
  induction h with
  | ahead_stop hstep =>
      cases h' with
      | ahead_stop =>
          rfl
      | ahead_step hstep' =>
          rw [hstep] at hstep'
          exact absurd hstep' (by simp)
  | ahead_step hstep _ ih =>
      cases h' with
      | ahead_stop hstep' =>
          rw [hstep] at hstep'
          exact absurd hstep' (by simp)
      | ahead_step hstep' hrest =>
          rw [hstep] at hstep'
          obtain rfl := Option.some.inj hstep'
          exact ih hrest
  | stop hstep =>
      cases h' with
      | stop =>
          rfl
      | step hstep' =>
          rw [hstep] at hstep'
          exact absurd hstep' (by simp)
  | step hstep _ ih =>
      cases h' with
      | stop hstep' =>
          rw [hstep] at hstep'
          exact absurd hstep' (by simp)
      | step hstep' hrest =>
          rw [hstep] at hstep'
          obtain rfl := Option.some.inj hstep'
          exact ih hrest

theorem steps_step? {w w' : Walk V} {p : Int} (h : w.step? d p = some w') : w'.steps = w.steps + 1 := by
  unfold step? at h
  split at h
  · exact absurd h (by simp)
  · rw [← Option.some.inj h]

/-- A walk that takes fewer steps than it has code points to read was not cut short by the limit on end
marks. -/
theorem ends_advance {w : Walk V} {ahead : List Int} {input : Input} {fresh : List Int} {marks : Nat}
    (h : (advance d w ahead input fresh marks).walk.steps <
      w.steps + (ahead.length + input.rest.length + marks)) :
    Ends d w ahead input fresh (advance d w ahead input fresh marks) := by
  fun_induction advance d w ahead input fresh marks with
  | case1 w input fresh marks p ahead hstep =>
      exact .ahead_stop hstep
  | case2 w input fresh marks p ahead w' hstep ih =>
      refine .ahead_step hstep (ih ?_)
      have := steps_step? hstep
      simp only [List.length_cons] at h
      omega
  | case3 w input fresh marks hlimit =>
      simp [hlimit.1, hlimit.2] at h
  | case4 w input fresh marks hlimit r hstep =>
      exact .stop hstep
  | case5 w input fresh marks hlimit r w' hstep ih =>
      simp only [dite_eq_ite] at h ih ⊢
      refine .step hstep (ih ?_)
      have hone := steps_step? hstep
      -- One code point less is left to read.
      have hleft : r.2.rest.length + (if input.rest = [] then marks - 1 else marks) + 1 =
          input.rest.length + marks := by
        rw [show r.2.rest = input.rest.tail from Input.rest_read input]
        cases hrest : input.rest with
        | nil =>
            have hmarks : marks ≠ 0 := fun hzero => hlimit ⟨hrest, hzero⟩
            simp only [List.tail_nil, List.length_nil, if_true]
            omega
        | cons c cs =>
            simp only [List.tail_cons, List.length_cons, reduceCtorEq, if_false]
            omega
      simp only [List.length_nil] at h ⊢
      omega

/-- A walk follows a prefix of what it goes along. -/
theorem Along.exists_followed {u : List Int} {w : Walk V} (h : Along d u w) (ps : List Int) :
    ∃ v, v <+: ps ∧ Along d (u ++ v) (along d w ps) := by
  induction ps generalizing u w with
  | nil =>
      exact ⟨[], List.prefix_rfl, by simpa [along] using h⟩
  | cons p ps ih =>
      rw [along]
      split
      · exact ⟨[], List.nil_prefix, by simpa using h⟩
      · rename_i w' hstep
        obtain ⟨v, hv, hw⟩ := ih (h.step hstep)
        exact ⟨p :: v, List.cons_prefix_cons.2 ⟨rfl, hv⟩, by simpa using hw⟩

end Walk

/-! ## The words that a matcher follows -/

namespace NFA.Isolated

variable {V : Type} {n : NFA V} {parts : List (Part V)}

/-- Behind the start there are no end marks. -/
theorem nonneg_of_path (h : n.Isolated parts) (halphabet : n.InAlphabet) {q t : Nat} {w : List Int}
    (hw : Path n.Step q w t) (hq : q ≠ start) : ∀ p ∈ w, 0 ≤ p := by
  induction hw with
  | nil =>
      simp
  | @step x y _ l _ hstep _ ih =>
      have hy : y ≠ start := fun hy => h.not_step_start x l (hy ▸ hstep)
      intro p hp
      rcases List.mem_append.1 hp with hp | hp
      · cases hstep with
        | silent =>
            exact absurd hp (by simp)
        | edge he hcov =>
            obtain rfl : p = _ := by simpa using hp
            exact ((halphabet x hq _ he).bounds hcov).1
      · exact ih hy p hp

/-- A word from the start has no end mark, or it is a single end mark. -/
theorem word_of_path (h : n.Isolated parts) (halphabet : n.InAlphabet) {t : Nat} {w : List Int}
    (hw : Path n.Step start w t) : (∀ p ∈ w, 0 ≤ p) ∨ w = [endMark] := by
  cases hw with
  | nil =>
      exact Or.inl (by simp)
  | @step _ y _ l _ hstep hrest =>
      have hy : y ≠ start := fun hy => h.not_step_start start l (hy ▸ hstep)
      cases hstep with
      | silent =>
          exact Or.inl (h.nonneg_of_path halphabet hrest hy)
      | edge he hcov =>
          obtain ⟨hrange, part, hpart, hend, htarget⟩ := h.edge_start he
          rw [hrange, Range.covers_point_iff] at hcov
          -- Behind the end mark there is a state that nothing leaves.
          have hsink : ∀ l x, ¬ n.Step part.first l x := by
            intro l x hstep
            have hmem := hstep.mem_targets
            rw [h.single part hpart hend, h.sink part hpart] at hmem
            exact absurd hmem (by simp)
          rw [← htarget] at hrest
          obtain ⟨-, rfl⟩ := Path.eq_of_sink hsink hrest
          exact Or.inr (by simp [hcov])

end NFA.Isolated

namespace Compiler.Built

open MaximalMunch.NFA

variable {V : Type} [DecidableEq V] {n : NFA V} {parts : List (Part V)} {a : DFA V}
  {cs : List (List Nat)} {index : Std.HashMap (List Nat) Nat}

theorem start_lt (h : Built n parts a cs index) : a.start < a.size := h.lt_size h.start_eq

/-- A word that is followed leads to a state, which is not the start unless the word is empty. -/
theorem configuration_of_run? (h : Built n parts a cs index) {w : List Int} {q : Nat}
    (hw : a.run? a.start w = some q) :
    ∃ config, cs[q]? = some config ∧ n.Configuration start w config ∧ config ≠ [] :=
  h.tracks.configuration_of_run? h.isolated.wellFormed h.isolated.start_lt h.start_eq hw

/-- A word that is followed has no end mark, or it is a single end mark. -/
theorem word_of_run? (h : Built n parts a cs index) {w : List Int} {q : Nat}
    (hw : a.run? a.start w = some q) : (∀ p ∈ w, 0 ≤ p) ∨ w = [endMark] := by
  obtain ⟨config, -, hconf, hne⟩ := h.configuration_of_run? hw
  obtain ⟨t, ht⟩ := hconf.ne_nil_iff.1 hne
  exact h.isolated.word_of_path h.inAlphabet ht

/-- Behind the end mark there is another state than the start. -/
theorem two_le_size (h : Built n parts a cs index) {q : Nat}
    (hw : a.run? a.start [endMark] = some q) : 2 ≤ a.size := by
  obtain ⟨config, hq, hconf, -⟩ := h.configuration_of_run? hw
  have hlt := h.lt_size hq
  have hne : q ≠ a.start := by
    rintro rfl
    -- The configuration of the end mark would have the start, which nothing leads to.
    have hconfig := Option.some.inj (hq.symm.trans h.start_eq)
    have hmem : start ∈ config := by
      rw [hconfig]
      exact (h.configuration_start.mem_iff start).2 (Path.nil start)
    have hempty := (Path.refl_iff_of_source h.isolated.not_step_start).1 ((hconf.mem_iff start).1 hmem)
    exact absurd hempty (by simp)
  have := h.start_lt
  omega

end Compiler.Built

/-! ## The length of a walk -/

namespace Scanner

/-- A prefix without end marks is not longer than the text. -/
theorem length_le_of_nonneg {cs : List Char} {marks : Nat} {v : List Int} (hv : v <+: ofText cs marks)
    (hnonneg : ∀ p ∈ v, 0 ≤ p) : v.length ≤ cs.length := by
  have hlen := hv.length_le
  rw [List.prefix_iff_eq_take.1 hv, take_ofText_eq] at hnonneg
  simp only [ofText, List.length_append, List.length_map, List.length_replicate] at hlen
  by_contra hlt
  -- The first end mark belongs to the prefix.
  have hmem : endMark ∈ ofText (cs.take v.length) (min (v.length - cs.length) marks) :=
    List.mem_append_right _ (List.mem_replicate.2 ⟨by omega, rfl⟩)
  exact absurd (hnonneg endMark hmem) (by decide)

section Walks

variable {V : Type} [DecidableEq V] {n : NFA V} {parts : List (Part V)} {a : DFA V}
  {cs : List (List Nat)} {index : Std.HashMap (List Nat) Nat} {s : Scanner V}

/-- A walk has as many steps as there are characters left, or one over an end mark; and it was not cut short
by the limit on end marks. -/
theorem steps_walk_le (h : Compiler.Built n parts a cs index) (hs : Ready a s) :
    s.walk.walk.steps ≤ max s.text.length 1 ∧
      s.walk.walk.steps < s.ahead.length + s.input.rest.length + a.size := by
  have hauto := hs.automaton
  have hsize := h.start_lt
  obtain ⟨marks, hmarks, hlist⟩ := hs.buffered.append_ofText s.automaton.size
  have htotal := congrArg List.length hlist
  simp only [ofText, List.length_append, List.length_map, List.length_replicate] at htotal
  have hwalk : s.walk.walk = Walk.along s.automaton { state := s.automaton.start }
      (ofText s.text marks) := by
    rw [walk, Walk.advance_walk, hlist, text]
  obtain ⟨v, hv, halong⟩ := (Walk.Along.start s.automaton).exists_followed (ofText s.text marks)
  rw [← hwalk] at halong
  have hrun := halong.run
  have hsteps := halong.steps
  rw [hauto] at hrun hmarks htotal
  rw [List.nil_append] at hrun hsteps
  have htext : s.text.length = (characters s.ahead ++ s.input.rest).length := rfl
  rw [List.length_append] at htext
  rw [hsteps]
  rcases h.word_of_run? hrun with hnonneg | rfl
  · have := length_le_of_nonneg hv hnonneg
    omega
  · have := h.two_le_size hrun
    simp only [List.length_singleton]
    omega

/-- The walk of a scanner ends where the walk without the limit does. -/
theorem ends_walk_iff (h : Compiler.Built n parts a cs index) (hs : Ready a s) {o : Walk.Outcome V} :
    Walk.Ends a { state := a.start } s.ahead s.input [] o ↔ o = s.walk := by
  have hshort := (steps_walk_le h hs).2
  obtain rfl := hs.automaton
  have hends : Walk.Ends s.automaton { state := s.automaton.start } s.ahead s.input [] s.walk :=
    Walk.ends_advance (by simpa [walk] using hshort)
  constructor
  · intro ho
    exact ho.unique hends
  · rintro rfl
    exact hends

end Walks

/-- What is left of the text begins at the position. -/
theorem Reached.text_eq_drop {V : Type} {s : Scanner V} {m : Matcher V} {text : String} (h : Reached m text s) :
    s.text = text.toList.drop s.position := by
  have htry : ∀ {s : Scanner V}, Reached m text s → s.text = text.toList.drop s.position →
      s.tryNext.2.text = text.toList.drop s.tryNext.2.position := by
    intro s hs htext
    cases hx : s.exhausted with
    | true =>
        rw [tryNext_of_exhausted hx]
        exact htext
    | false =>
        rcases tryNext_spec hs.stands.buffered hx with ⟨marks, -, ⟨k, v, -, htakes⟩ | ⟨-, hstays⟩⟩
        · rw [htakes.text, htakes.position, htext, List.drop_drop]
        · rw [hstays.text, hstays.position, htext]
  induction h with
  | scan =>
      rfl
  | tryNext hs ih =>
      exact htry hs ih
  | @next s hs ih =>
      cases hstalled : s.stalled with
      | true =>
          rw [next_of_stalled hstalled]
          exact ih
      | false =>
          rw [next_of_not_stalled hstalled]
          exact htry hs ih

end Scanner

/-! ## Iteration -/

theorem Match.isEmpty_iff {V : Type} {found : Match V} : found.isEmpty = true ↔ found.capture = "" := by
  simp [Match.isEmpty]

namespace Scanner

variable {V : Type} {s : Scanner V}

/-- What `next` finds is taken off the text, and an empty capture is the last one. -/
theorem next_spec {found : Match V} {s' : Scanner V} (h : s.next = (some found, s')) :
    s.stalled = false ∧ found.capture.toList.length + s'.text.length = s.text.length ∧
      s'.stalled = found.isEmpty := by
  cases hstalled : s.stalled with
  | true =>
      rw [next_of_stalled hstalled] at h
      exact absurd h (by simp)
  | false =>
      rw [next_of_not_stalled hstalled, Prod.mk.injEq] at h
      obtain ⟨hfound, rfl⟩ := h
      have htext := congrArg List.length s.tryNext_text
      rw [hfound, List.length_append] at htext
      refine ⟨rfl, htext, ?_⟩
      simp [hfound]

theorem collect_of_stalled (h : s.stalled = true) : s.collect = ([], s) := by
  rw [collect_eq, next_of_stalled h]

/-- Iteration answers `next` by `next` what `collect` finds, and then nothing. -/
theorem calls_collect (s : Scanner V) :
    (s.calls (List.replicate (s.collect.1.length + 1) .next)).1 =
      s.collect.1.map (fun found => (.next, some found)) ++ [(.next, none)] := by
  fun_induction collect s with
  | case1 s s' h heq =>
      have hnext : s.next = (none, s') := congrArg Subtype.val heq
      simp [calls, call, hnext]
  | case2 s found s' h heq r ih =>
      have hnext : s.next = (some found, s') := congrArg Subtype.val heq
      rw [List.length_cons, List.replicate_succ, calls, call, hnext]
      exact congrArg (_ :: ·) ih

/-- Each match but the last one takes a character. -/
theorem length_collect_le (s : Scanner V) :
    s.collect.1.length ≤ s.text.length + if s.stalled then 0 else 1 := by
  fun_induction collect s with
  | case1 s s' h heq =>
      exact Nat.zero_le _
  | case2 s found s' h heq r ih =>
      have hnext : s.next = (some found, s') := congrArg Subtype.val heq
      obtain ⟨hstalled, htext, hlast⟩ := next_spec hnext
      have hcons : (found :: r.1).length = s'.collect.1.length + 1 := rfl
      rw [hcons, hstalled]
      cases hempty : found.isEmpty with
      | true =>
          rw [hlast, hempty] at ih
          simp only [if_true, Bool.false_eq_true, if_false] at ih ⊢
          omega
      | false =>
          have hpos : found.capture.toList ≠ [] := by
            intro hnil
            rw [Match.isEmpty_iff.2 (String.toList_eq_nil_iff.1 hnil)] at hempty
            exact absurd hempty (by simp)
          have := List.length_pos_iff.2 hpos
          rw [hlast, hempty] at ih
          simp only [Bool.false_eq_true, if_false] at ih ⊢
          omega

theorem capture_ne_of_mem_collect (s : Scanner V) :
    ∀ found ∈ s.collect.1.dropLast, found.capture ≠ "" := by
  fun_induction collect s with
  | case1 s s' h heq =>
      simp
  | case2 s found s' h heq r ih =>
      have hnext : s.next = (some found, s') := congrArg Subtype.val heq
      obtain ⟨-, -, hlast⟩ := next_spec hnext
      intro f hf
      by_cases hmore : r.1 = []
      · rw [hmore] at hf
        exact absurd hf (by simp)
      · rw [List.dropLast_cons_of_ne_nil hmore] at hf
        rcases List.mem_cons.1 hf with rfl | hf
        · -- Behind an empty capture there would be no more matches.
          intro hempty
          refine hmore ?_
          rw [show r = s'.collect from rfl, collect_of_stalled (hlast.trans (Match.isEmpty_iff.2 hempty))]
        · exact ih f hf

/-! ## All scans of a matcher -/

variable [DecidableEq V] {d : Dialect} {m : Matcher V}

/-- Whatever calls a matcher was compiled from, and wherever in a text a scanner of it stands: the walk over
what is left, with any number of end marks behind it, ends where the walk of the scanner does, and it has
followed at most one code point for each character left, or one at the end. Iteration over a text of `n`
characters answers at most `n + 1` matches before it answers nothing, and only the last one may capture
nothing. -/
theorem scanning_ends {ks : List (Compiler.Call V)} (hm : ((Compiler.new d).calls ks).compile = .ok m)
    (text : String) :
    (∀ s, Reached m text s →
      (∀ o, Walk.Ends m.automaton { state := m.automaton.start } s.ahead s.input [] o ↔ o = s.walk) ∧
      s.text = text.toList.drop s.position ∧
      s.walk.walk.steps ≤ max s.text.length 1) ∧
    ∃ found : List (Match V), (m.scan text).collect.1 = found ∧
      ((m.scan text).calls (List.replicate (found.length + 1) .next)).1 =
        found.map (fun f => (.next, some f)) ++ [(.next, none)] ∧
      found.length ≤ text.length + 1 ∧ ∀ f ∈ found.dropLast, f.capture ≠ "" := by
  obtain ⟨parts, cs, index, -, hbuilt⟩ := (Compiler.collects_calls d ks).built hm
  refine ⟨fun s hs => ?_, (m.scan text).collect.1, rfl, calls_collect _, ?_,
    capture_ne_of_mem_collect _⟩
  · have hready : Ready m.automaton s := ⟨hs.stands.automaton, hs.stands.buffered⟩
    exact ⟨fun o => ends_walk_iff hbuilt hready, hs.text_eq_drop, (steps_walk_le hbuilt hready).1⟩
  · calc
      (m.scan text).collect.1.length ≤ text.toList.length + 1 := length_collect_le (m.scan text)
      _ = text.length + 1 := by rw [String.length_toList]

/-- A loop over all characters but one ends at the end of the text, although there are end marks without
limit behind it. -/
theorem scanning_ends_negated_class :
    ∃ m, ((Compiler.new .regex : Compiler Nat).calls [.add "[^a]*" 1, .addEndOfText 2]).compile = .ok m ∧
      Reached m "bb" (m.scan "bb") ∧
      (∃ o, Walk.Ends m.automaton { state := m.automaton.start } [] (.ofString "bb") [] o) ∧
      (m.scan "bb").walk.walk.steps ≤ 2 ∧ (m.scan "bb").collect.1.length ≤ 3 := by
  obtain ⟨m, hm⟩ := Compiler.exists_compile_negated_class
  have h := scanning_ends hm "bb"
  obtain ⟨hends, htext, hsteps⟩ := h.1 (m.scan "bb") .scan
  obtain ⟨found, hfound, -, hlength, -⟩ := h.2
  have hrest : (m.scan "bb").text.length = 2 := rfl
  refine ⟨m, hm, .scan, ⟨_, (hends _).2 rfl⟩, ?_, ?_⟩
  · rw [hrest] at hsteps
    exact hsteps
  · rw [hfound]
    exact hlength

end Scanner

end MaximalMunch
