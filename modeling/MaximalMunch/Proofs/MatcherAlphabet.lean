import MaximalMunch.Proofs.Isolation
import MaximalMunch.Proofs.Lookahead

/-!
# The alphabet of a matcher

The edges of a matcher lie over the alphabet of patterns, but for one edge over the end mark that leaves the
start if there is a value for the end of the text. So no capture has a character beyond the alphabet, and
only the end of the text exhausts a scanner.

- `NFA.InAlphabet`          : behind the start all edges lie over the alphabet
- `NFA.Isolated.end_source` : only the end mark leads to the end of the text
- `Compiler.Built`          : the automaton of a compiler, and the construction that its matcher comes from
- `Built.edge_cases`        : the edges of a matcher
- `Scanner.call_cases`      : what a call finds, and when it exhausts a scanner
- `Compiler.compile_alphabet` : the edges, the captures and the end of all scans of a matcher
-/

namespace MaximalMunch

open CodePoint
open Compiler (start)

namespace NFA

variable {V : Type} {n : NFA V}

/-- The edges of all states but the start lie over the alphabet. -/
def InAlphabet (n : NFA V) : Prop := ∀ q, q ≠ start → ∀ e ∈ n.edges q, e.toRange.InAlphabet

namespace InAlphabet

theorem addState (h : n.InAlphabet) (v : Option V) : (n.addState v).InAlphabet := by
  intro q hq e he
  rw [edges_addState] at he
  exact h q hq e he

theorem addEdges (h : n.InAlphabet) (s : Nat) {rs : List Range}
    (hrs : s = start ∨ ∀ r ∈ rs, r.InAlphabet) (t : Nat) : (n.addEdges s rs t).InAlphabet := by
  intro q hq e he
  rw [edges_addEdges] at he
  rcases List.mem_append.1 he with he | he
  · exact h q hq e he
  · split at he
    · rename_i hs
      rcases List.mem_map.1 he with ⟨r, hr, rfl⟩
      rcases hrs with hstart | hrs
      · exact absurd (hs.1.trans hstart) hq
      · exact hrs r hr
    · exact absurd he (by simp)

theorem addSilent (h : n.InAlphabet) (s t : Nat) : (n.addSilent s t).InAlphabet := by
  intro q hq e he
  rw [edges_addSilent] at he
  exact h q hq e he

/-- Only the start has edges over the end mark. -/
theorem eq_start (h : n.InAlphabet) {q : Nat} {e : Edge} (he : e ∈ n.edges q)
    (hcov : e.Covers endMark) : q = start := by
  by_contra hne
  have hnonneg := ((h q hne e he).bounds hcov).1
  exact absurd hnonneg (by decide)

theorem kept : Kept Range.InAlphabet (InAlphabet : NFA V → Prop) where
  addEmpty := fun h => h.addState none
  addEdges := fun s t hrs h => h.addEdges s (Or.inr hrs) t
  addSilent := fun s t h => h.addSilent s t

end InAlphabet

namespace Isolated

variable {parts : List (Part V)} {p : Part V}

/-- An edge of the start leads over the end mark to a value for the end of the text. -/
theorem edge_start (h : n.Isolated parts) {e : Edge} (he : e ∈ n.edges start) :
    e.toRange = .point endMark ∧ ∃ p ∈ parts, p.rule.isPattern = false ∧ p.first = e.target := by
  rw [h.edges_start] at he
  rcases List.mem_map.1 he with ⟨t, ht, rfl⟩
  exact ⟨rfl, mem_ends_iff.1 ht⟩

/-- Only the end mark leads to a value for the end of the text. -/
theorem end_source (h : n.Isolated parts) (hp : p ∈ parts) (hend : p.rule.isPattern = false) {q : Nat}
    {e : Edge} (he : e ∈ n.edges q) (ht : e.target = p.first) : e.toRange = .point endMark := by
  have hmem : p.first ∈ n.targets q := by
    rw [← ht]
    exact List.mem_append_left _ (List.mem_map_of_mem he)
  have hle := (h.adjoining.bounds hp).2.1
  -- The part has one state, which nothing leaves.
  have hq : ¬ p.Has q := by
    intro hq
    have hlast : q = p.last := by
      have := h.single p hp hend
      have := hq.1
      have := hq.2
      omega
    rw [hlast, h.sink p hp] at hmem
    exact absurd hmem (by simp)
  obtain ⟨rfl, -⟩ := h.eq_start_of_enters hp hmem ⟨Nat.le_refl _, hle⟩ hq
  exact (h.edge_start he).1

end Isolated

end NFA

namespace Compiler

open MaximalMunch.NFA

variable {V : Type} {d : Dialect} {rules : List (Rule V)} {c : Compiler V}

theorem Collects.inAlphabet (h : Collects d rules c) : c.automaton.InAlphabet := by
  induction h with
  | new =>
      intro q _ e he
      rw [show (Compiler.new d : Compiler V).automaton.edges q = [] from edges_addEmpty ..] at he
      exact absurd he (by simp)
  | @pattern rules c c' text value _ hadd ih =>
      obtain ⟨t, ht, -, rfl⟩ := exists_insert_of_add hadd
      have hranges : t.Forall (Tree.RangesOf Range.InAlphabet) :=
        Tree.Forall.imp (fun _ hnode => hnode.1) (Dialect.parse_sound ht)
      have hlower := Tree.lower_keeps InAlphabet.kept hranges _ c.automaton.size
        ((ih.addState none).addSilent start c.automaton.size)
      exact (hlower.addState (some value)).addSilent _ _
  | @endOfText rules c value _ ih =>
      exact (ih.addState (some value)).addEdges start (Or.inl rfl) c.automaton.size

/-! ## The edges of a matcher -/

section Edges

variable [DecidableEq V] {n : NFA V} {parts : List (Part V)} {a : DFA V} {cs : List (List Nat)}
  {index : Std.HashMap (List Nat) Nat}

/-- The deterministic automaton `a` comes from the automaton of a compiler; its states stand for the
configurations `cs`. -/
structure Built (n : NFA V) (parts : List (Part V)) (a : DFA V) (cs : List (List Nat))
    (index : Std.HashMap (List Nat) Nat) : Prop where
  isolated : n.Isolated parts
  inAlphabet : n.InAlphabet
  tracks : Powerset.Tracks n start [] cs ⟨a.states, index, []⟩
  start_eq : cs[a.start]? = some (n.closure [start])

theorem Collects.built {m : Matcher V} (h : Collects d rules c) (hm : c.compile = .ok m) :
    ∃ parts cs index, parts.map Part.rule = rules ∧ Built c.automaton parts m.automaton cs index := by
  obtain ⟨parts, hrules, hparts⟩ := h.isolated
  have htracks := determinize_tracks hparts.wellFormed hparts.start_lt
  rw [determinize_of_compile hm] at htracks
  obtain ⟨cs, index, ht, hstart⟩ := htracks
  exact ⟨parts, cs, index, hrules, hparts, h.inAlphabet, ht, hstart⟩

namespace Built

theorem lt_size (h : Built n parts a cs index) {q : Nat} {config : List Nat}
    (hq : cs[q]? = some config) : q < a.size := by
  have hlt := (List.getElem?_eq_some_iff.1 hq).1
  rw [← h.tracks.size_eq] at hlt
  exact hlt

theorem configuration_start (h : Built n parts a cs index) :
    n.Configuration start [] (n.closure [start]) :=
  .nil h.isolated.wellFormed h.isolated.start_lt

/-- Only the start of a matcher stands for a configuration with the start. -/
theorem eq_start_of_mem (h : Built n parts a cs index) {q : Nat} {config : List Nat}
    (hq : cs[q]? = some config) (hmem : start ∈ config) : q = a.start := by
  obtain ⟨w, hw⟩ := h.tracks.reached config (List.mem_of_getElem? hq)
  -- Nothing leads back to the start, so the word is empty.
  obtain rfl : w = [] :=
    (Path.refl_iff_of_source (h.isolated.not_step_start)).1 ((hw.mem_iff start).1 hmem)
  have hnil := h.configuration_start
  have hconfig : config = n.closure [start] :=
    hw.ascending.eq_of_mem_iff hnil.ascending fun x => (hw.mem_iff x).trans (hnil.mem_iff x).symm
  have hindex := (h.tracks.index_iff _ _).2 h.start_eq
  rw [← hconfig, (h.tracks.index_iff _ _).2 hq] at hindex
  exact Option.some.inj hindex

/-- An edge lies over a region of the configuration of its state. -/
theorem exists_region (h : Built n parts a cs index) {q : Nat} {e : Edge} (he : e ∈ a.edges q) :
    ∃ config, cs[q]? = some config ∧ ∃ r ∈ Region.ofEdges (n.edgesOf config), e.toRange = r.toRange := by
  have hlt : q < cs.length := by
    rw [← h.tracks.size_eq]
    by_contra hge
    have hnone : a.states[q]? = none := Array.getElem?_eq_none (Nat.not_lt.1 hge)
    simp [DFA.edges, hnone] at he
  have hconnected : Powerset.Connected n cs cs[q] (a.edges q) :=
    h.tracks.connected_edges (List.getElem?_eq_getElem hlt)
  obtain ⟨r, hr, hleads⟩ := hconnected.exists_region he
  exact ⟨cs[q], List.getElem?_eq_getElem hlt, r, hr, hleads.1⟩

/-- A region of a configuration covers code points of the alphabet, or the end mark if the start belongs to
the configuration. -/
theorem bounds_of_covers (h : Built n parts a cs index) {config : List Nat} {r : Region}
    (hr : r ∈ Region.ofEdges (n.edgesOf config)) {p : Int} (hp : r.Covers p) :
    (0 ≤ p ∧ p ≤ greatest) ∨ p = endMark ∧ start ∈ config := by
  have hpart := Configuration.partition h.isolated.wellFormed config
  obtain ⟨e, he, hcov⟩ := hpart.exists_covers_iff.1 ⟨r, hr, hp⟩
  obtain ⟨q, hq, hmem⟩ := List.mem_flatMap.1 he
  by_cases hstart : q = start
  · subst hstart
    have hrange := (h.isolated.edge_start hmem).1
    rw [hrange, Range.covers_point_iff] at hcov
    exact Or.inr ⟨hcov, hq⟩
  · exact Or.inl ((h.inAlphabet q hstart e hmem).bounds hcov)

/-- A region over the end mark covers nothing else: what the end mark leads to is reached over nothing else. -/
theorem eq_endMark_of_covers (h : Built n parts a cs index) {config : List Nat} {r : Region}
    (hr : r ∈ Region.ofEdges (n.edgesOf config)) (hend : r.Covers endMark) {p : Int}
    (hp : r.Covers p) : p = endMark := by
  have hpart := Configuration.partition h.isolated.wellFormed config
  obtain ⟨e, he, hcov⟩ := hpart.exists_covers_iff.1 ⟨r, hr, hend⟩
  obtain ⟨q, -, hmem⟩ := List.mem_flatMap.1 he
  obtain rfl := h.inAlphabet.eq_start hmem hcov
  obtain ⟨-, part, hpart', hnot, htarget⟩ := h.isolated.edge_start hmem
  -- The target is reached over `p`, too.
  have htargets := (hpart.mem_targets_iff hr hend).2 ⟨e, he, hcov, rfl⟩
  obtain ⟨e', he', hcov', heq⟩ := (hpart.mem_targets_iff hr hp).1 htargets
  obtain ⟨q', -, hmem'⟩ := List.mem_flatMap.1 he'
  have hrange := h.isolated.end_source hpart' hnot hmem' (heq.trans htarget.symm)
  rw [hrange, Range.covers_point_iff] at hcov'
  exact hcov'

/-- An edge lies over the alphabet, or it leaves the start over the end mark. -/
theorem edge_cases (h : Built n parts a cs index) {q : Nat} {e : Edge} (he : e ∈ a.edges q) :
    e.toRange.InAlphabet ∨ (q = a.start ∧ e.toRange = .point endMark) := by
  obtain ⟨config, hq, r, hr, hrange⟩ := h.exists_region he
  have hproper : r.lo ≤ r.hi := (Configuration.partition h.isolated.wellFormed config).proper r hr
  rw [hrange]
  have hlo : r.Covers r.lo := ⟨Int.le_refl _, hproper⟩
  have hhi : r.Covers r.hi := ⟨hproper, Int.le_refl _⟩
  rcases h.bounds_of_covers hr hlo with hbounds | ⟨hmark, hmem⟩
  · rcases h.bounds_of_covers hr hhi with hbounds' | ⟨hmark, -⟩
    · exact Or.inl ⟨hbounds.1, hproper, hbounds'.2⟩
    · have hneg : endMark < 0 := by decide
      omega
  · rw [hmark] at hlo
    have hlast := h.eq_endMark_of_covers hr hlo hhi
    refine Or.inr ⟨h.eq_start_of_mem hq hmem, ?_⟩
    calc
      r.toRange = ⟨r.lo, r.hi⟩ := rfl
      _ = .point endMark := by rw [hmark, hlast, Range.point]

/-- The start has an edge over the end mark if there is a value for the end of the text. -/
theorem exists_edge_endMark_iff (h : Built n parts a cs index) :
    (∃ e ∈ a.edges a.start, e.Covers endMark) ↔ ∃ p ∈ parts, p.rule.isPattern = false := by
  have hpart := Configuration.partition h.isolated.wellFormed (n.closure [start])
  have hconnected : Powerset.Connected n cs (n.closure [start]) (a.edges a.start) :=
    h.tracks.connected_edges h.start_eq
  constructor
  · rintro ⟨e, he, hcov⟩
    obtain ⟨r, hr, hleads⟩ := hconnected.exists_region he
    rw [hleads.1] at hcov
    obtain ⟨e', he', hcov'⟩ := hpart.exists_covers_iff.1 ⟨r, hr, hcov⟩
    obtain ⟨q, -, hmem⟩ := List.mem_flatMap.1 he'
    obtain rfl := h.inAlphabet.eq_start hmem hcov'
    obtain ⟨-, p, hp, hnot, -⟩ := h.isolated.edge_start hmem
    exact ⟨p, hp, hnot⟩
  · rintro ⟨p, hp, hnot⟩
    have hmem : Edge.ofRange (.point endMark) p.first ∈ n.edges start := by
      rw [h.isolated.edges_start]
      exact List.mem_map_of_mem (Isolated.mem_ends_iff.2 ⟨p, hp, hnot, rfl⟩)
    have hedge : Edge.ofRange (.point endMark) p.first ∈ n.edgesOf (n.closure [start]) :=
      h.configuration_start.mem_edgesOf_iff.2 ⟨start, Path.nil start, hmem⟩
    obtain ⟨r, hr, hcov⟩ := hpart.exists_covers_iff.2 ⟨_, hedge, Range.covers_point_iff.2 rfl⟩
    obtain ⟨e, he, hleads⟩ := hconnected.exists_edge hr
    refine ⟨e, he, ?_⟩
    rw [hleads.1]
    exact hcov

end Built

end Edges

end Compiler

/-! ## Scans -/

namespace Scanner

variable {V : Type} [DecidableEq V] {d : Dialect} {rules : List (Rule V)} {c : Compiler V} {m : Matcher V}
  {s : Scanner V}

/-- Only the end of the text exhausts a scanner, and the value for this end is found then. -/
theorem tryNext_of_exhausts (h : Compiler.Collects d rules c) (hm : c.compile = .ok m)
    (hs : Ready m.automaton s) (hx : s.exhausted = false) (hx' : s.tryNext.2.exhausted = true) :
    s.text = [] ∧ ∃ v ∈ Rule.endValues rules, s.tryNext.1 = some { value := v, capture := "" } := by
  rcases tryNext_cases h hm hs.automaton hs.buffered hx with
    ⟨u, v, ⟨-, hu, -⟩, -, -, htakes⟩ | ⟨hnil, v, hv, htakes⟩ | ⟨-, -, hstays⟩
  · rw [(htakes.of_prefix hu).2.2] at hx'
    exact absurd hx' (by simp)
  · exact ⟨hnil, v, hv, (htakes.of_end hnil).1⟩
  · rw [hstays.exhausted] at hx'
    exact absurd hx' (by simp)

omit [DecidableEq V] in
/-- What is found captures characters of the alphabet. -/
theorem Finds.charInAlphabet {r : List Char} {found : Match V} (h : Finds d rules m r (some found)) :
    ∀ x ∈ found.capture.toList, CharInAlphabet x := by
  intro x hx
  generalize hf : some found = o at h
  cases h with
  | @longest u v _ _ hmatched =>
      obtain rfl := Option.some.inj hf
      obtain ⟨p, -, hmatch⟩ := hmatched
      have hmem : x ∈ u := by simpa using hx
      exact (hmatch.bounds _ (List.mem_map_of_mem hmem)).2
  | endOfText =>
      obtain rfl := Option.some.inj hf
      exact absurd hx (by simp)
  | start =>
      obtain ⟨v, -, rfl⟩ := Option.map_eq_some_iff.1 hf.symm
      exact absurd hx (by simp)

theorem charInAlphabet_tryNext (h : Compiler.Collects d rules c) (hm : c.compile = .ok m)
    (hs : Ready m.automaton s) {found : Match V} (hfound : s.tryNext.1 = some found) :
    ∀ x ∈ found.capture.toList, CharInAlphabet x := by
  cases hx : s.exhausted with
  | true =>
      rw [tryNext_of_exhausted hx] at hfound
      exact absurd hfound (by simp)
  | false =>
      have hfinds := finds_tryNext h hm hs hx
      rw [hfound] at hfinds
      exact hfinds.charInAlphabet

omit [DecidableEq V] in
/-- A call answers and exhausts as `tryNext` does, or it changes nothing and finds nothing. -/
theorem call_cases (s : Scanner V) (k : Call) :
    ((s.call k).1 = s.tryNext.1 ∧ (s.call k).2.exhausted = s.tryNext.2.exhausted) ∨
      s.call k = (none, s) := by
  cases k with
  | tryNext =>
      exact Or.inl ⟨rfl, rfl⟩
  | next =>
      cases hstalled : s.stalled with
      | true =>
          exact Or.inr (next_of_stalled hstalled)
      | false =>
          rw [call, next_of_not_stalled hstalled]
          exact Or.inl ⟨rfl, rfl⟩

end Scanner

namespace Compiler

variable {V : Type} [DecidableEq V] {d : Dialect} {m : Matcher V}

/-- Whatever calls a matcher was compiled from: its edges lie over the alphabet from 0 to `0xFFFF`, but for
an edge of the start over the end mark, which is there if and only if a value for the end of the text was
added. So no call on a scanner captures a character beyond the alphabet, and a call that exhausts a scanner
has found a value for the end of the text, at this end. -/
theorem compile_alphabet {ks : List (Call V)} (hm : ((new d).calls ks).compile = .ok m) :
    (∀ q, ∀ e ∈ m.automaton.edges q,
      (0 ≤ e.lo ∧ e.lo ≤ e.hi ∧ e.hi ≤ 0xFFFF) ∨
        (q = m.automaton.start ∧ e.toRange = .point endMark)) ∧
    ((∃ e ∈ m.automaton.edges m.automaton.start, e.toRange = .point endMark) ↔
      ∃ v, .addEndOfText v ∈ ks) ∧
    ∀ text s, Scanner.Reached m text s → ∀ k,
      (∀ found, (s.call k).1 = some found → ∀ x ∈ found.capture.toList, ofChar x ≤ 0xFFFF) ∧
      (s.exhausted = false → (s.call k).2.exhausted = true →
        s.text = [] ∧ ∃ v, .addEndOfText v ∈ ks ∧ (s.call k).1 = some { value := v, capture := "" }) := by
  have h := collects_calls d ks
  obtain ⟨parts, cs, index, hrules, hbuilt⟩ := h.built hm
  refine ⟨fun q e he => ?_, ?_, fun text s hs k => ?_⟩
  · rcases hbuilt.edge_cases he with halphabet | hmark
    · exact Or.inl ⟨halphabet.lo_nonneg, halphabet.proper, halphabet.hi_le⟩
    · exact Or.inr hmark
  · have hend : (∃ p ∈ parts, p.rule.isPattern = false) ↔ ∃ v, .addEndOfText v ∈ ks := by
      simp only [Rule.isPattern_eq_false_iff, ← endOfText_mem_rulesOf_iff (c := new d), ← hrules,
        List.mem_map]
      constructor
      · rintro ⟨p, hp, v, hv⟩
        exact ⟨v, p, hp, hv⟩
      · rintro ⟨v, p, hp, hv⟩
        exact ⟨p, hp, v, hv⟩
    rw [← hend, ← hbuilt.exists_edge_endMark_iff]
    constructor
    · rintro ⟨e, he, hrange⟩
      refine ⟨e, he, ?_⟩
      rw [hrange]
      exact Range.covers_point_iff.2 rfl
    · rintro ⟨e, he, hcov⟩
      refine ⟨e, he, ?_⟩
      rcases hbuilt.edge_cases he with halphabet | hmark
      · exact absurd (halphabet.bounds hcov).1 (by decide)
      · exact hmark.2
  · have hready : Scanner.Ready m.automaton s := ⟨hs.stands.automaton, hs.stands.buffered⟩
    rcases s.call_cases k with ⟨hfound, hexhausted⟩ | hnothing
    · rw [hfound, hexhausted]
      refine ⟨fun found hf => Scanner.charInAlphabet_tryNext h hm hready hf, fun hx hx' => ?_⟩
      obtain ⟨hnil, v, hv, hvalue⟩ := Scanner.tryNext_of_exhausts h hm hready hx hx'
      exact ⟨hnil, v, endOfText_mem_rulesOf_iff.1 (Rule.mem_endValues_iff.1 hv), hvalue⟩
    · rw [hnothing]
      refine ⟨fun found hf => absurd hf (by simp), fun hx hx' => ?_⟩
      rw [hx] at hx'
      exact absurd hx' (by simp)

/-- A loop over all characters but one. -/
theorem parse_negated_class :
    Dialect.regex.parse "[^a]*" = .ok (.repetition (.characters (Range.complement [.ofChar 'a'])) 0 none) := by
  rw [Dialect.parse, Dialect.tokens_eq_reading]
  with_unfolding_all rfl

theorem collects_negated_class :
    Collects .regex [.pattern "[^a]*" 1, .endOfText 2]
      ((new .regex : Compiler Nat).calls [.add "[^a]*" 1, .addEndOfText 2]) := by
  have hadd := add_eq_ok (c := (new .regex : Compiler Nat)) parse_negated_class (by with_unfolding_all rfl) 1
  simp only [calls, call, hadd]
  exact .endOfText (.pattern .new hadd)

theorem exists_compile_negated_class :
    ∃ m, ((new .regex : Compiler Nat).calls [.add "[^a]*" 1, .addEndOfText 2]).compile = .ok m :=
  collects_negated_class.exists_compile

/-- A negated class in a loop takes in neither the end of the text nor a character beyond the alphabet. -/
theorem compile_alphabet_negated_class :
    ∃ m, ((new .regex : Compiler Nat).calls [.add "[^a]*" 1, .addEndOfText 2]).compile = .ok m ∧
      (∃ e ∈ m.automaton.edges m.automaton.start, e.toRange = .point endMark) ∧
      ∀ found, (m.scan "b😀").tryNext.1 = some found → ∀ x ∈ found.capture.toList, ofChar x ≤ 0xFFFF := by
  obtain ⟨m, hm⟩ := exists_compile_negated_class
  have h := compile_alphabet hm
  exact ⟨m, hm, h.2.1.2 ⟨2, by simp⟩, (h.2.2 "b😀" (m.scan "b😀") .scan .tryNext).1⟩

end Compiler

end MaximalMunch
