import MaximalMunch.Proofs.Ambiguity
import MaximalMunch.Proofs.LongestMatch

/-!
# Scanning with compiled rules

A scanner of compiled rules takes the longest prefix of the rest of its text that some pattern matches, with
the value of all patterns that match it. The end of the text and the empty word come after that.

- `Compiler.Collects.output?_iff`    : what a matcher accepts a word for
- `Scanner.tryNext_cases`            : what is taken, by the longest accepted prefix
- `Scanner.tryNext_correct`          : one call of `tryNext`, on any scanner that is not exhausted
-/

namespace MaximalMunch

open CodePoint

namespace Rule

variable {V : Type} {d : Dialect} {rules : List (Rule V)}

/-- Some pattern matches the text. -/
def Matched (d : Dialect) (rules : List (Rule V)) (u : List Char) : Prop :=
  ∃ p ∈ patterns rules, d.Matches p.1 (u.map ofChar)

/-- A rule accepts a text with end marks behind it if it is a pattern and there are none, or if it is a value
for the end of the text, and there is just this end. -/
theorem accepts_ofText_iff {r : Rule V} {u : List Char} {marks : Nat} :
    r.Accepts d (ofText u marks) ↔
      (∃ text v, r = pattern text v ∧ marks = 0 ∧ d.Matches text (u.map ofChar)) ∨
        ∃ v, r = endOfText v ∧ u = [] ∧ marks = 1 := by
  cases r with
  | pattern text v =>
      constructor
      · intro h
        have hzero : marks = 0 := by
          by_contra hne
          have hmem : endMark ∈ ofText u marks :=
            List.mem_append_right _ (List.mem_replicate.2 ⟨hne, rfl⟩)
          exact Dialect.Matches.ne_endMark h endMark hmem rfl
        subst hzero
        rw [ofText_zero] at h
        exact Or.inl ⟨text, v, rfl, rfl, h⟩
      · rintro (⟨text', v', heq, rfl, h⟩ | ⟨v', heq, -⟩)
        · cases heq
          rw [ofText_zero]
          exact h
        · exact absurd heq (by simp)
  | endOfText v =>
      constructor
      · intro h
        have hw : ofText u marks = [endMark] := h
        cases u with
        | nil =>
            have hlen : marks = 1 := by simpa [ofText] using congrArg List.length hw
            exact Or.inr ⟨v, rfl, rfl, hlen⟩
        | cons c cs =>
            -- A character is not an end mark.
            have hhead : ofChar c = endMark := by
              simp only [ofText, List.map_cons, List.cons_append] at hw
              exact (List.cons.inj hw).1
            have hnonneg := ofChar_nonneg c
            rw [hhead] at hnonneg
            exact absurd hnonneg (by decide)
      · rintro (⟨text', v', heq, -⟩ | ⟨v', -, rfl, rfl⟩)
        · exact absurd heq (by simp)
        · rfl

end Rule

namespace Compiler

open MaximalMunch.NFA

variable {V : Type} [DecidableEq V] {d : Dialect} {rules : List (Rule V)} {c : Compiler V} {m : Matcher V}

/-- A matcher accepts a word for the value of the rules that accept it. -/
theorem Collects.output?_iff (h : Collects d rules c) (hm : c.compile = .ok m) {w : List Int} {v : V} :
    m.automaton.output? w = some v ↔ ∃ r ∈ rules, r.Accepts d w ∧ r.value = v := by
  have hspec := h.compile_spec
  rw [hm] at hspec
  rcases h.holds.2 with ⟨marked, hheld, rfl⟩
  rw [hspec.output?_iff, hheld.carries_iff]

/-- The automaton of a single pattern accepts the words of its tree. -/
theorem compile_single {text : String} {t : Tree} (ht : d.parse text = .ok t) (value : V) :
    ∃ m, ((Compiler.new d).insert t value).compile = .ok m ∧
      ∀ w u, m.automaton.output? w = some u ↔ u = value ∧ t.Spells w := by
  rcases holds_insert holds_new ht value with ⟨accept, hheld⟩
  have hcarries : ∀ w u, ((Compiler.new d).insert t value).automaton.Carries start w u ↔
      u = value ∧ t.Spells w := by
    intro w u
    rw [hheld.carries_iff]
    simp [Rule.Accepts, Rule.value, Dialect.Matches, ht, and_comm, eq_comm]
  -- All words carry the same value.
  obtain ⟨a, ha⟩ := exists_determinize hheld.wellFormed hheld.start_lt fun w u v hu hv =>
    ((hcarries w u).1 hu).1.trans ((hcarries w v).1 hv).1.symm
  have hspec := determinize_spec hheld.wellFormed hheld.start_lt
  unfold compile
  rw [ha] at hspec ⊢
  exact ⟨⟨a⟩, rfl, fun w u => hspec.output?_iff.trans (hcarries w u)⟩

/-- A text with end marks behind it is accepted for the value of a pattern that matches it, or for the value
of the end of the text. -/
theorem Collects.output?_ofText_iff (h : Collects d rules c) (hm : c.compile = .ok m) {u : List Char}
    {marks : Nat} {v : V} :
    m.automaton.output? (ofText u marks) = some v ↔
      (marks = 0 ∧ ∃ p ∈ Rule.patterns rules, d.Matches p.1 (u.map ofChar) ∧ p.2 = v) ∨
        (u = [] ∧ marks = 1 ∧ v ∈ Rule.endValues rules) := by
  simp only [h.output?_iff hm, Rule.accepts_ofText_iff]
  constructor
  · rintro ⟨r, hr, ⟨text, v', rfl, hzero, hmatch⟩ | ⟨v', rfl, hnil, hone⟩, rfl⟩
    · exact Or.inl ⟨hzero, (text, v'), Rule.mem_patterns_iff.2 hr, hmatch, rfl⟩
    · exact Or.inr ⟨hnil, hone, Rule.mem_endValues_iff.2 hr⟩
  · rintro (⟨hzero, p, hp, hmatch, rfl⟩ | ⟨hnil, hone, hv⟩)
    · exact ⟨_, Rule.mem_patterns_iff.1 hp, Or.inl ⟨_, _, rfl, hzero, hmatch⟩, rfl⟩
    · exact ⟨_, Rule.mem_endValues_iff.1 hv, Or.inr ⟨_, rfl, hnil, hone⟩, rfl⟩

/-- A matcher accepts the text of a pattern for the value of this pattern. -/
theorem Collects.output?_of_matches (h : Collects d rules c) (hm : c.compile = .ok m) {u : List Char}
    {p : String × V} (hp : p ∈ Rule.patterns rules) (hmatch : d.Matches p.1 (u.map ofChar)) :
    m.automaton.output? (ofText u 0) = some p.2 :=
  (h.output?_ofText_iff hm).2 (Or.inl ⟨rfl, p, hp, hmatch, rfl⟩)

/-- The start of a matcher has the value of the patterns that match the empty word. -/
theorem Collects.value?_start_iff (h : Collects d rules c) (hm : c.compile = .ok m) {v : V} :
    m.automaton.value? m.automaton.start = some v ↔
      ∃ p ∈ Rule.patterns rules, d.Matches p.1 [] ∧ p.2 = v := by
  have hempty : m.automaton.value? m.automaton.start = m.automaton.output? (ofText [] 0) := rfl
  rw [hempty, h.output?_ofText_iff hm]
  simp

/-- All values for the end of the text are equal if there is a matcher. -/
theorem Collects.endValue_unique (h : Collects d rules c) (hm : c.compile = .ok m) {u v : V}
    (hu : u ∈ Rule.endValues rules) (hv : v ∈ Rule.endValues rules) : u = v := by
  have hout := (h.output?_ofText_iff hm).2 (Or.inr ⟨rfl, rfl, hu⟩)
  rw [(h.output?_ofText_iff hm).2 (Or.inr ⟨rfl, rfl, hv⟩)] at hout
  exact (Option.some.inj hout).symm

end Compiler

/-! ## A pattern and a longer one -/

theorem Dialect.parse_a : Dialect.regex.parse "a" = .ok (Tree.seqOf (['a'].map Tree.char)) := by
  rw [Dialect.parse, Dialect.tokens_eq_reading]
  with_unfolding_all rfl

theorem Dialect.parse_aab : Dialect.regex.parse "aab" = .ok (Tree.seqOf (['a', 'a', 'b'].map Tree.char)) := by
  rw [Dialect.parse, Dialect.tokens_eq_reading]
  with_unfolding_all rfl

/-- A pattern of characters matches one word. -/
theorem Dialect.matches_chars_iff {text : String} {cs : List Char} {w : List Int}
    (ht : Dialect.regex.parse text = .ok (Tree.seqOf (cs.map Tree.char))) :
    Dialect.regex.Matches text w ↔ w = cs.map ofChar := by
  rw [← Tree.spells_chars_iff]
  simp [Dialect.Matches, ht]

/-- A matcher of `a` and `aab`, which has to read ahead. -/
theorem Compiler.compile_lookahead :
    let c : Compiler Nat := ((Compiler.new .regex).addAll [("a", 1), ("aab", 2)]).1
    ∃ m, Compiler.Collects .regex [.pattern "a" 1, .pattern "aab" 2] c ∧ c.compile = .ok m := by
  have hadded : ((Compiler.new .regex : Compiler Nat).addAll [("a", 1), ("aab", 2)]).2 = none := by
    rw [Compiler.addAll, Compiler.add_eq_ok Dialect.parse_a (by cbv) 1]
    simp only
    rw [Compiler.addAll, Compiler.add_eq_ok Dialect.parse_aab (by cbv) 2]
    rfl
  intro c
  have hrules : Compiler.Collects .regex [.pattern "a" 1, .pattern "aab" 2] c := Compiler.Collects.new.addAll hadded
  obtain ⟨m, hm⟩ : ∃ m, c.compile = .ok m := by
    refine hrules.compile_ok_iff.2 fun w r hr s hs hrw hsw => ?_
    -- Their words have different lengths.
    have hne : ['a'].map ofChar ≠ ['a', 'a', 'b'].map ofChar := by decide
    obtain rfl | rfl : r = .pattern "a" 1 ∨ r = .pattern "aab" 2 := by simpa using hr
    all_goals obtain rfl | rfl : s = .pattern "a" 1 ∨ s = .pattern "aab" 2 := by simpa using hs
    · rfl
    · exact absurd (((Dialect.matches_chars_iff Dialect.parse_a).1 hrw).symm.trans
        ((Dialect.matches_chars_iff Dialect.parse_aab).1 hsw)) hne
    · exact absurd (((Dialect.matches_chars_iff Dialect.parse_a).1 hsw).symm.trans
        ((Dialect.matches_chars_iff Dialect.parse_aab).1 hrw)) hne
    · rfl
  exact ⟨m, hrules, hm⟩

namespace Scanner

variable {V : Type} [DecidableEq V] {d : Dialect} {rules : List (Rule V)} {c : Compiler V} {m : Matcher V}
  {s : Scanner V} {r : List Char} {marks : Nat}

theorem take_ofText_length {u : List Char} (hu : u <+: r) :
    (ofText r marks).take u.length = ofText u 0 := by
  rcases hu with ⟨more, rfl⟩
  simp [ofText]

theorem length_le_ofText {u : List Char} (hu : u <+: r) : u.length ≤ (ofText r marks).length := by
  have := hu.length_le
  simp only [ofText, List.length_append, List.length_map]
  omega

/-- A prefix of the text that some pattern matches is not longer than what is taken. -/
theorem length_le_of_longest (h : Compiler.Collects d rules c) (hm : c.compile = .ok m) {k : Nat} {v : V}
    (hlongest : m.automaton.Longest (ofText r marks) (some (k, v))) {u : List Char} (hu : u <+: r)
    (hmatched : Rule.Matched d rules u) : u.length ≤ k := by
  rcases hmatched with ⟨p, hp, hmatch⟩
  by_contra hlt
  have hnone := hlongest.2.2.2 u.length (by omega) (length_le_ofText hu)
  rw [take_ofText_length hu, h.output?_of_matches hm hp hmatch] at hnone
  exact absurd hnone (by simp)

/-- If nothing is taken, no pattern matches a prefix of the text that is not empty. -/
theorem not_matched_of_longest_none (h : Compiler.Collects d rules c) (hm : c.compile = .ok m)
    (hlongest : m.automaton.Longest (ofText r marks) none) {u : List Char} (hne : u ≠ [])
    (hu : u <+: r) : ¬ Rule.Matched d rules u := by
  rintro ⟨p, hp, hmatch⟩
  have hnone := hlongest u.length (List.length_pos_iff.2 hne) (length_le_ofText hu)
  rw [take_ofText_length hu, h.output?_of_matches hm hp hmatch] at hnone
  exact absurd hnone (by simp)

/-- If nothing is taken at the end of the text, there is no value for this end. -/
theorem endValues_eq_nil_of_longest_none (h : Compiler.Collects d rules c) (hm : c.compile = .ok m)
    (hmarks : m.automaton.size ≤ marks) (hlongest : m.automaton.Longest (ofText [] marks) none) :
    Rule.endValues rules = [] := by
  refine List.eq_nil_iff_forall_not_mem.2 fun v hv => ?_
  have hout : m.automaton.output? (ofText [] 1) = some v :=
    (h.output?_ofText_iff hm).2 (Or.inr ⟨rfl, rfl, hv⟩)
  -- An automaton that follows the end mark has a state, so at least one end mark is read.
  have hsize := DFA.size_pos_of_output? hout
  have hnone := hlongest 1 (by omega) (by simp [ofText]; omega)
  have hmin : min (1 - ([] : List Char).length) marks = 1 := by
    simp only [List.length_nil]
    omega
  rw [take_ofText_eq, hmin, List.take_nil, hout] at hnone
  exact absurd hnone (by simp)

/-- What one call of `tryNext` finds. -/
theorem tryNext_cases (h : Compiler.Collects d rules c) (hm : c.compile = .ok m)
    (hauto : s.automaton = m.automaton) (hbuf : Buffered s.ahead s.input.rest)
    (hx : s.exhausted = false) :
    (∃ u v, (u ≠ [] ∧ u <+: s.text ∧ Rule.Matched d rules u) ∧
      (∀ u', u' <+: s.text → Rule.Matched d rules u' → u'.length ≤ u.length) ∧
      m.automaton.output? (ofText u 0) = some v ∧ s.Takes u.length v) ∨
    (s.text = [] ∧ ∃ v ∈ Rule.endValues rules, s.Takes 1 v) ∨
    ((∀ u, u ≠ [] → u <+: s.text → ¬ Rule.Matched d rules u) ∧
      (s.text = [] → Rule.endValues rules = []) ∧ s.Stays) := by
  rcases tryNext_spec hbuf hx with ⟨marks, hmarks, ⟨k, v, hlongest, htakes⟩ | ⟨hlongest, hstays⟩⟩
  · -- The prefix that is taken is text of a pattern, or the end of the text.
    rw [hauto] at hlongest
    have hout := hlongest.2.2.1
    have hpos := hlongest.1
    have hk : k ≤ s.text.length + marks := by simpa [ofText] using hlongest.2.1
    rw [take_ofText_eq] at hout
    rcases (h.output?_ofText_iff hm).1 hout with ⟨hzero, p, hp, hmatch, rfl⟩ | ⟨hnil, hone, hv⟩
    · have hlen : (s.text.take k).length = k := List.length_take_of_le (by omega)
      have hne : s.text.take k ≠ [] := List.length_pos_iff.1 (by omega)
      rw [hzero] at hout
      refine Or.inl ⟨s.text.take k, p.2, ⟨hne, List.take_prefix k s.text, p, hp, hmatch⟩,
        fun u hu hmatched => ?_, hout, ?_⟩
      · rw [hlen]
        exact length_le_of_longest h hm hlongest hu hmatched
      · rw [hlen]
        exact htakes
    · -- Nothing but the end of the text was taken.
      rcases List.take_eq_nil_iff.1 hnil with hzero | htext
      · omega
      · have hlen : s.text.length = 0 := by rw [htext, List.length_nil]
        obtain rfl : k = 1 := by omega
        exact Or.inr (Or.inl ⟨htext, v, hv, htakes⟩)
  · rw [hauto] at hlongest hmarks
    refine Or.inr (Or.inr ⟨fun u hne hu => not_matched_of_longest_none h hm hlongest hne hu,
      fun hnil => ?_, hstays⟩)
    rw [hnil] at hlongest
    exact endValues_eq_nil_of_longest_none h hm hmarks hlongest

/-- One call of `tryNext` on any scanner that is not exhausted, by the rest `r` of the text. If some pattern
matches a prefix of `r` that is not empty, the longest such prefix is captured, with the value of every
pattern that matches it. If not, a value for the end of the text is found at this end, and the scanner is
exhausted. If there is none or the end is not reached, a pattern that matches the empty word is found with an
empty capture, and otherwise nothing is found. -/
theorem tryNext_correct (h : Compiler.Collects d rules c) (hm : c.compile = .ok m) {text : String}
    (hs : Reached m text s) (hx : s.exhausted = false) :
    let r := text.toList.drop s.position
    ((∃ u, u ≠ [] ∧ u <+: r ∧ Rule.Matched d rules u) →
      ∃ u v, (u ≠ [] ∧ u <+: r ∧ Rule.Matched d rules u) ∧
        (∀ u', u' <+: r → Rule.Matched d rules u' → u'.length ≤ u.length) ∧
        (∀ p ∈ Rule.patterns rules, d.Matches p.1 (u.map ofChar) → p.2 = v) ∧
        s.tryNext.1 = some { value := v, capture := String.ofList u } ∧
        s.tryNext.2.position = s.position + u.length ∧ s.tryNext.2.exhausted = false) ∧
    ((¬ ∃ u, u ≠ [] ∧ u <+: r ∧ Rule.Matched d rules u) →
      (r = [] → ∀ v ∈ Rule.endValues rules,
        s.tryNext.1 = some { value := v, capture := "" } ∧ s.tryNext.2.exhausted = true) ∧
      ((r = [] → Rule.endValues rules = []) →
        (∀ p ∈ Rule.patterns rules, d.Matches p.1 [] →
          s.tryNext.1 = some { value := p.2, capture := "" } ∧
          s.tryNext.2.position = s.position ∧ s.tryNext.2.exhausted = false) ∧
        (¬ Rule.Matched d rules [] →
          s.tryNext.1 = none ∧ s.tryNext.2.position = s.position ∧
          s.tryNext.2.exhausted = false))) := by
  have hstands := hs.stands
  have htext : s.text = text.toList.drop s.position := hstands.text hx
  intro r
  have hr : s.text = r := htext
  rcases tryNext_cases h hm hstands.automaton hstands.buffered hx with
    ⟨u, v, hu, hlongest, hout, htakes⟩ | ⟨hnil, v, hv, htakes⟩ | ⟨hnone, hend, hstays⟩
  · refine ⟨fun _ => ⟨u, v, ?_⟩, fun hno => absurd ⟨u, hr ▸ hu⟩ hno⟩
    have hvalues : ∀ p ∈ Rule.patterns rules, d.Matches p.1 (u.map ofChar) → p.2 = v := by
      intro p hp hmatch
      rw [h.output?_of_matches hm hp hmatch] at hout
      exact Option.some.inj hout
    have htaken := htakes.of_prefix hu.2.1
    rw [hr] at hu hlongest
    exact ⟨hu, hlongest, hvalues, htaken⟩
  · have hrest : r = [] := hr.symm.trans hnil
    refine ⟨?_, fun _ => ⟨fun _ v' hv' => ?_, fun hno => ?_⟩⟩
    · -- The rest of the text has no prefix but the empty one.
      rintro ⟨u, hne, hu, -⟩
      rw [hrest] at hu
      exact absurd (List.prefix_nil.1 hu) hne
    · rw [h.endValue_unique hm hv' hv]
      exact htakes.of_end hnil
    · rw [hno hrest] at hv
      exact absurd hv (by simp)
  · rw [hr] at hnone hend
    refine ⟨?_, fun _ => ⟨fun hnil v hv => ?_, fun _ => ⟨fun p hp hmatch => ?_, fun hno => ?_⟩⟩⟩
    · rintro ⟨u, hne, hu, hmatched⟩
      exact absurd hmatched (hnone u hne hu)
    · rw [hend hnil] at hv
      exact absurd hv (by simp)
    · have hvalue := (h.value?_start_iff hm).2 ⟨p, hp, hmatch, rfl⟩
      rw [hstays.found, hstands.automaton, hvalue]
      exact ⟨rfl, hstays.position, hstays.exhausted⟩
    · -- A value of the start would be that of a pattern that matches the empty word.
      have hvalue : m.automaton.value? m.automaton.start = none := by
        by_contra hsome
        rcases Option.ne_none_iff_exists'.1 hsome with ⟨v, hv⟩
        rcases (h.value?_start_iff hm).1 hv with ⟨p, hp, hmatch, -⟩
        exact hno ⟨p, hp, hmatch⟩
      rw [hstays.found, hstands.automaton, hvalue]
      exact ⟨rfl, hstays.position, hstays.exhausted⟩

/-- After the first `a` of `aac` the scanner reads on for `aab`, in vain, and comes back to it. -/
theorem tryNext_correct_read_in_vain :
    ∃ (c : Compiler Nat) (m : Matcher Nat),
      Compiler.Collects .regex [.pattern "a" 1, .pattern "aab" 2] c ∧ c.compile = .ok m ∧
      Reached m "aac" (m.scan "aac") ∧ (m.scan "aac").exhausted = false ∧
      (m.scan "aac").tryNext.1 = some { value := 1, capture := "a" } ∧
      (m.scan "aac").tryNext.2.position = 1 := by
  obtain ⟨m, hrules, hm⟩ := Compiler.compile_lookahead
  have hmatch : Dialect.regex.Matches "a" (['a'].map ofChar) :=
    (Dialect.matches_chars_iff Dialect.parse_a).2 rfl
  have hmatched : Rule.Matched .regex [.pattern "a" 1, .pattern "aab" 2] ['a'] :=
    ⟨("a", 1), by simp [Rule.patterns], hmatch⟩
  have hrest : "aac".toList.drop (m.scan "aac").position = ['a', 'a', 'c'] := rfl
  have hnext := (tryNext_correct hrules hm (.scan : Reached m "aac" _) rfl).1
  rw [hrest] at hnext
  obtain ⟨u, v, ⟨-, hprefix, p, hp, hu⟩, -, hvalues, hfound, hposition, -⟩ :=
    hnext ⟨['a'], by simp, ⟨['a', 'c'], rfl⟩, hmatched⟩
  have hinjective : Function.Injective (List.map ofChar) := List.map_injective_iff.2 fun _ _ => ofChar_injective
  have hone : u = ['a'] := by
    obtain rfl | rfl : p = ("a", 1) ∨ p = ("aab", 2) := by simpa [Rule.patterns] using hp
    · exact hinjective ((Dialect.matches_chars_iff Dialect.parse_a).1 hu)
    · -- The longer pattern would need a `b`.
      have huaab : u = ['a', 'a', 'b'] := hinjective ((Dialect.matches_chars_iff Dialect.parse_aab).1 hu)
      rw [huaab] at hprefix
      exact absurd hprefix (by decide)
  subst hone
  have hv : 1 = v := hvalues ("a", 1) (by simp [Rule.patterns]) hmatch
  refine ⟨_, m, hrules, hm, .scan, rfl, ?_, hposition⟩
  rw [hfound, ← hv]

end Scanner

end MaximalMunch
