import MaximalMunch.Proofs.Determinization
import MaximalMunch.Proofs.RuleSet

/-!
# Ambiguous rules

Compiling fails if and only if two patterns with different values match one word, or two values for the end
of the text differ. The error lists the values that meet, in the order in which they were added.

- `Rule.patterns`, `Rule.endValues` : the two kinds of rules
- `Rule.Conflict`, `Rule.EndConflict` : where two different values meet
- `Collects.compile_ok_iff` : when there is a matcher
- `Compiler.compile_ambiguous` : compiling fails there and nowhere else
-/

namespace MaximalMunch

open CodePoint

/-- The words of a pattern are words over the alphabet. -/
theorem Dialect.Matches.bounds {d : Dialect} {pattern : String} {w : List Int}
    (h : d.Matches pattern w) : ∀ p ∈ w, 0 ≤ p ∧ p ≤ greatest := by
  rcases h with ⟨t, ht, hw⟩
  exact Tree.Sound.bounds_of_spells hw (Dialect.parse_sound ht)

/-- No pattern takes in an end mark. -/
theorem Dialect.Matches.ne_endMark {d : Dialect} {pattern : String} {w : List Int}
    (h : d.Matches pattern w) : ∀ p ∈ w, p ≠ endMark := by
  rintro p hp rfl
  exact absurd (h.bounds endMark hp).1 (by decide)

namespace Rule

variable {V : Type} {d : Dialect} {rules : List (Rule V)} {w : List Int}

/-- The patterns with their values. -/
def patterns (rules : List (Rule V)) : List (String × V) :=
  rules.filterMap fun
    | pattern text v => some (text, v)
    | endOfText _ => none

/-- The values for the end of the text. -/
def endValues (rules : List (Rule V)) : List V :=
  rules.filterMap fun
    | pattern _ _ => none
    | endOfText v => some v

open Classical in
/-- The values of the patterns that match a word, in the order of the patterns. -/
noncomputable def valuesAt (d : Dialect) (rules : List (Rule V)) (w : List Int) : List V :=
  ((patterns rules).filter fun p => d.Matches p.1 w).map Prod.snd

/-- Two patterns with different values match the word `w` over the alphabet. -/
def Conflict (d : Dialect) (rules : List (Rule V)) (w : List Int) : Prop :=
  (∀ p ∈ w, 0 ≤ p ∧ p ≤ 0xFFFF) ∧ ∃ p ∈ patterns rules, ∃ q ∈ patterns rules,
    d.Matches p.1 w ∧ d.Matches q.1 w ∧ p.2 ≠ q.2

/-- Two values for the end of the text differ. -/
def EndConflict (rules : List (Rule V)) : Prop :=
  ∃ u ∈ endValues rules, ∃ v ∈ endValues rules, u ≠ v

theorem mem_patterns_iff {p : String × V} : p ∈ patterns rules ↔ pattern p.1 p.2 ∈ rules := by
  rw [patterns, List.mem_filterMap]
  constructor
  · rintro ⟨r, hr, hp⟩
    cases r with
    | pattern text v =>
        obtain rfl := Option.some.inj hp
        exact hr
    | endOfText v =>
        exact absurd hp (by simp)
  · intro hp
    exact ⟨_, hp, rfl⟩

theorem mem_endValues_iff {v : V} : v ∈ endValues rules ↔ endOfText v ∈ rules := by
  rw [endValues, List.mem_filterMap]
  constructor
  · rintro ⟨r, hr, hv⟩
    cases r with
    | pattern text u =>
        exact absurd hv (by simp)
    | endOfText u =>
        obtain rfl := Option.some.inj hv
        exact hr
  · intro hv
    exact ⟨_, hv, rfl⟩

open Classical in
/-- At the end of a text there are the values for this end only. -/
theorem acceptedValues_end (d : Dialect) (rules : List (Rule V)) :
    (rules.filter fun r => r.Accepts d [endMark]).map value = endValues rules := by
  induction rules with
  | nil =>
      rfl
  | cons r rules ih =>
      cases r with
      | pattern text v =>
          have hnot : ¬ (pattern text v).Accepts d [endMark] :=
            fun h => Dialect.Matches.ne_endMark h endMark (by simp) rfl
          rw [List.filter_cons_of_neg (by simpa using hnot), ih]
          rfl
      | endOfText v =>
          have hacc : (endOfText v).Accepts d [endMark] := rfl
          rw [List.filter_cons_of_pos (by simpa using hacc), List.map_cons, ih]
          rfl

open Classical in
/-- Any other word is accepted by patterns only. -/
theorem acceptedValues_word (hw : w ≠ [endMark]) (d : Dialect) (rules : List (Rule V)) :
    (rules.filter fun r => r.Accepts d w).map value = valuesAt d rules w := by
  induction rules with
  | nil =>
      rfl
  | cons r rules ih =>
      cases r with
      | pattern text v =>
          have hcons : patterns (pattern text v :: rules) = (text, v) :: patterns rules := rfl
          unfold valuesAt at ih ⊢
          rw [hcons]
          by_cases hm : d.Matches text w
          · have hacc : (pattern text v).Accepts d w := hm
            rw [List.filter_cons_of_pos (by simpa using hacc),
              List.filter_cons_of_pos (by simpa using hm), List.map_cons, List.map_cons, ih]
            rfl
          · have hnot : ¬ (pattern text v).Accepts d w := hm
            rw [List.filter_cons_of_neg (by simpa using hnot),
              List.filter_cons_of_neg (by simpa using hm), ih]
      | endOfText v =>
          have hnot : ¬ (endOfText v).Accepts d w := hw
          rw [List.filter_cons_of_neg (by simpa using hnot), ih]
          rfl

theorem mem_valuesAt_iff {v : V} :
    v ∈ valuesAt d rules w ↔ ∃ p ∈ patterns rules, d.Matches p.1 w ∧ p.2 = v := by
  simp [valuesAt, and_assoc]

theorem Conflict.exists_accepts (h : Conflict d rules w) :
    ∃ r ∈ rules, ∃ s ∈ rules, r.Accepts d w ∧ s.Accepts d w ∧ r.value ≠ s.value := by
  rcases h with ⟨-, p, hp, q, hq, hpw, hqw, hne⟩
  exact ⟨_, mem_patterns_iff.1 hp, _, mem_patterns_iff.1 hq, hpw, hqw, hne⟩

theorem EndConflict.exists_accepts (h : EndConflict rules) (d : Dialect) :
    ∃ r ∈ rules, ∃ s ∈ rules, r.Accepts d [endMark] ∧ s.Accepts d [endMark] ∧ r.value ≠ s.value := by
  rcases h with ⟨u, hu, v, hv, hne⟩
  exact ⟨_, mem_endValues_iff.1 hu, _, mem_endValues_iff.1 hv, rfl, rfl, hne⟩

end Rule

namespace Compiler

open MaximalMunch.NFA

variable {V : Type} [DecidableEq V] {d : Dialect} {rules : List (Rule V)} {c : Compiler V}

/-- A matcher has the deterministic automaton of its compiler. -/
theorem determinize_of_compile {m : Matcher V} (hm : c.compile = .ok m) :
    c.automaton.determinize start = .ok m.automaton := by
  unfold compile at hm
  split at hm
  · rename_i a ha
    obtain rfl : { automaton := a } = m := Except.ok.inj hm
    exact ha
  · exact absurd hm (by simp)
  · exact absurd hm (by simp)

/-- Compiling makes a matcher that simulates the automaton of the rules, or it reports the values of a
collision. -/
theorem Collects.compile_spec (h : Collects d rules c) :
    match c.compile with
    | .ok m => m.automaton.Simulates c.automaton start
    | .error e => ∃ values, e = .ambiguous values ∧
        c.automaton.Collides start (.collision values) := by
  rcases h.holds.2 with ⟨marked, hheld, -⟩
  have hspec := determinize_spec hheld.wellFormed hheld.start_lt
  unfold compile
  generalize c.automaton.determinize start = x at hspec ⊢
  match x, hspec with
  | .ok d, hspec => exact hspec
  | .error (.collision values), hspec => exact ⟨values, rfl, hspec⟩
  | .error (.overlap o), hspec =>
      rcases hspec with ⟨w, c, -, hfault, -⟩
      exact absurd hfault (by simp)

/-- Compiling fails if two different values meet at a word. -/
theorem Collects.not_ok_of_accepts (h : Collects d rules c) {w : List Int} {r s : Rule V}
    (hr : r ∈ rules) (hs : s ∈ rules) (hrw : r.Accepts d w) (hsw : s.Accepts d w)
    (hne : r.value ≠ s.value) : ∃ e, c.compile = .error e := by
  have hspec := h.compile_spec
  rcases h.holds.2 with ⟨marked, hheld, rfl⟩
  cases hc : c.compile with
  | error e =>
      exact ⟨e, rfl⟩
  | ok m =>
      rw [hc] at hspec
      have hu := hheld.carries_iff.2 ⟨r, hr, hrw, rfl⟩
      have hv := hheld.carries_iff.2 ⟨s, hs, hsw, rfl⟩
      exact absurd (hspec.carries_unique hu hv) hne

open Classical in
/-- A failure reports the values of all rules that accept one word, in their order. -/
theorem Collects.values_of_error (h : Collects d rules c) {e : CompileError V}
    (he : c.compile = .error e) :
    ∃ w values, e = .ambiguous values ∧ 2 ≤ values.length ∧
      values = ((rules.filter fun r => r.Accepts d w).map Rule.value).eraseDups := by
  have hspec := h.compile_spec
  rcases h.holds.2 with ⟨marked, hheld, rfl⟩
  rw [he] at hspec
  rcases hspec with ⟨values, rfl, w, qs, hqs, hfault, htwo⟩
  obtain rfl : values = (c.automaton.valuesOf qs).eraseDups := by simpa using hfault
  rw [hheld.valuesOf_eq hqs] at htwo ⊢
  exact ⟨w, _, rfl, htwo, rfl⟩

/-- There is a matcher if and only if all rules that accept one word have the same value. -/
theorem Collects.compile_ok_iff (h : Collects d rules c) :
    (∃ m, c.compile = .ok m) ↔
      ∀ w, ∀ r ∈ rules, ∀ s ∈ rules, r.Accepts d w → s.Accepts d w → r.value = s.value := by
  constructor
  · rintro ⟨m, hm⟩ w r hr s hs hrw hsw
    by_contra hne
    obtain ⟨e, he⟩ := h.not_ok_of_accepts hr hs hrw hsw hne
    rw [hm] at he
    exact absurd he (by simp)
  · intro hsame
    cases hc : c.compile with
    | ok m =>
        exact ⟨m, rfl⟩
    | error e =>
        obtain ⟨w, values, -, htwo, rfl⟩ := h.values_of_error hc
        obtain ⟨u, hu, v, hv, hne⟩ := Powerset.exists_ne_of_two_le_eraseDups htwo
        obtain ⟨r, hr, rfl⟩ := List.mem_map.1 hu
        obtain ⟨s, hs, rfl⟩ := List.mem_map.1 hv
        obtain ⟨hr, hrw⟩ := List.mem_filter.1 hr
        obtain ⟨hs, hsw⟩ := List.mem_filter.1 hs
        exact absurd (hsame w r hr s hs (by simpa using hrw) (by simpa using hsw)) hne

/-- One pattern and a value for the end of the text never meet. -/
theorem Collects.exists_compile {text : String} {u v : V} (h : Collects d [.pattern text u, .endOfText v] c) :
    ∃ m, c.compile = .ok m := by
  refine h.compile_ok_iff.2 fun w r hr s hs hrw hsw => ?_
  have hend : (Rule.endOfText v).Accepts d w → ¬ (Rule.pattern text u).Accepts d w := by
    rintro rfl hmatch
    exact Dialect.Matches.ne_endMark hmatch endMark (by simp) rfl
  obtain rfl | rfl : r = .pattern text u ∨ r = .endOfText v := by simpa using hr
  all_goals obtain rfl | rfl : s = .pattern text u ∨ s = .endOfText v := by simpa using hs
  · rfl
  · exact absurd hrw (hend hsw)
  · exact absurd hsw (hend hrw)
  · rfl

/-- Compiling fails if and only if two patterns with different values match one word over the alphabet, or
two values for the end of the text differ. The error then lists the distinct values of all patterns that
match such a word, or the distinct values for the end, in the order in which they were added. -/
theorem compile_ambiguous [Written V] (h : Collects d rules c) :
    ((∃ e, c.compile = .error e) ↔ (∃ w, Rule.Conflict d rules w) ∨ Rule.EndConflict rules) ∧
    ∀ e, c.compile = .error e → ∃ values, e = .ambiguous values ∧ 2 ≤ values.length ∧
      e.message = "transition collision between multiple values: " ++
        String.intercalate ", " (values.map written) ∧
      ((∃ w, Rule.Conflict d rules w ∧ values = (Rule.valuesAt d rules w).eraseDups) ∨
        Rule.EndConflict rules ∧ values = (Rule.endValues rules).eraseDups) := by
  have hreport : ∀ e, c.compile = .error e → ∃ values, e = .ambiguous values ∧ 2 ≤ values.length ∧
      ((∃ w, Rule.Conflict d rules w ∧ values = (Rule.valuesAt d rules w).eraseDups) ∨
        Rule.EndConflict rules ∧ values = (Rule.endValues rules).eraseDups) := by
    intro e he
    rcases h.values_of_error he with ⟨w, values, hamb, htwo, hvalues⟩
    refine ⟨values, hamb, htwo, ?_⟩
    rw [hvalues] at htwo ⊢
    -- A single end mark is no word of a pattern, and the only word of the other rules.
    rcases Powerset.exists_ne_of_two_le_eraseDups htwo with ⟨u, hu, v, hv, hne⟩
    by_cases hw : w = [endMark]
    · subst hw
      rw [Rule.acceptedValues_end] at hu hv ⊢
      exact Or.inr ⟨⟨u, hu, v, hv, hne⟩, rfl⟩
    · rw [Rule.acceptedValues_word hw] at hu hv ⊢
      rcases Rule.mem_valuesAt_iff.1 hu with ⟨p, hp, hpw, rfl⟩
      rcases Rule.mem_valuesAt_iff.1 hv with ⟨q, hq, hqw, rfl⟩
      exact Or.inl ⟨w, ⟨hpw.bounds, p, hp, q, hq, hpw, hqw, hne⟩, rfl⟩
  refine ⟨⟨?_, ?_⟩, ?_⟩
  · rintro ⟨e, he⟩
    rcases hreport e he with ⟨-, -, -, ⟨w, hw, -⟩ | ⟨hend, -⟩⟩
    · exact Or.inl ⟨w, hw⟩
    · exact Or.inr hend
  · rintro (⟨w, hw⟩ | hend)
    · rcases hw.exists_accepts with ⟨r, hr, s, hs, hrw, hsw, hne⟩
      exact h.not_ok_of_accepts hr hs hrw hsw hne
    · rcases hend.exists_accepts d with ⟨r, hr, s, hs, hrw, hsw, hne⟩
      exact h.not_ok_of_accepts hr hs hrw hsw hne
  · intro e he
    rcases hreport e he with ⟨values, rfl, htwo, hvalues⟩
    exact ⟨values, rfl, htwo, rfl, hvalues⟩

/-- A wildcard beside a character is ambiguous: the character has two values. -/
theorem compile_ambiguous_wildcard :
    ∃ c, Collects .glob [.pattern "?" false, .pattern "b" true] c ∧ ∃ e, c.compile = .error e := by
  have hany := Dialect.parse_wildcard
  have hb := Dialect.parse_letter
  have hroom : (Compiler.new .glob : Compiler Bool).fits Tree.any = true := by cbv
  have hroom' : ((Compiler.new .glob).insert Tree.any false).fits (.char 'b') = true := by cbv
  have hfirst := Collects.pattern Collects.new (add_eq_ok hany hroom false)
  have hrules := Collects.pattern hfirst (add_eq_ok hb hroom' true)
  have hword : ∀ r : Range, r.Covers 98 → (Tree.characters [r]).Spells [98] :=
    fun r hr => Tree.spells_characters_iff.2 ⟨r, by simp, 98, hr, rfl⟩
  have hmatch : Dialect.glob.Matches "?" [98] := ⟨Tree.any, hany, hword _ (by decide)⟩
  have hmatch' : Dialect.glob.Matches "b" [98] := ⟨.char 'b', hb, hword _ (by decide)⟩
  have hp : ("?", false) ∈ Rule.patterns [.pattern "?" false, .pattern "b" true] := by
    simp [Rule.patterns]
  have hq : ("b", true) ∈ Rule.patterns [.pattern "?" false, .pattern "b" true] := by
    simp [Rule.patterns]
  have hconflict : Rule.Conflict .glob [.pattern "?" false, .pattern "b" true] [98] :=
    ⟨by decide, _, hp, _, hq, hmatch, hmatch', by decide⟩
  exact ⟨_, hrules, (compile_ambiguous hrules).1.2 (Or.inl ⟨[98], hconflict⟩)⟩

end Compiler

end MaximalMunch
