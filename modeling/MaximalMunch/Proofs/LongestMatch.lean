import Mathlib.Data.List.Basic
import MaximalMunch.Matcher
import MaximalMunch.Proofs.EdgeSearch

/-!
# The longest match

A walk over the code points to come finds their longest accepted prefix, and a scanner takes just this
prefix off its text, whatever it has read ahead before.

- `DFA.output?`           : what a word is accepted for
- `DFA.Longest`           : the longest accepted prefix of a list of code points
- `Walk.along`            : a walk over a list of code points, without an input
- `Walk.advance_walk`     : a walk over an input is a walk along the code points that are still to come
- `Scanner.Buffered`      : what was read ahead are characters, and end marks only behind the last one
- `Scanner.tryNext_spec`   : the longest accepted prefix of what is to come is taken
- `Scanner.Reached`        : the scanners of one text, which stand at their positions
-/

namespace MaximalMunch

open CodePoint

/-- The code points of a text, and so many end marks behind it. -/
def CodePoint.ofText (cs : List Char) (marks : Nat) : List Int :=
  cs.map ofChar ++ List.replicate marks endMark

@[simp] theorem CodePoint.ofText_zero (cs : List Char) : ofText cs 0 = cs.map ofChar := by
  simp [ofText]

theorem Input.fst_read_cons {i : Input} {c : Char} {cs : List Char} (h : i.rest = c :: cs) :
    i.read.1 = ofChar c := by
  simp [Input.read, h]

theorem Input.fst_read_nil {i : Input} (h : i.rest = []) : i.read.1 = endMark := by
  simp only [Input.read, h]
  split <;> rfl

/-- Reading takes the first code point off what is to come. -/
theorem Input.ofText_read {i : Input} {marks : Nat} (h : ¬(i.rest = [] ∧ marks = 0)) :
    ofText i.rest marks =
      i.read.1 :: ofText i.read.2.rest (if i.rest = [] then marks - 1 else marks) := by
  rw [Input.rest_read]
  cases hrest : i.rest with
  | cons c cs =>
      simp [ofText, Input.fst_read_cons hrest]
  | nil =>
      have hpos : marks ≠ 0 := fun hzero => h ⟨hrest, hzero⟩
      obtain ⟨k, rfl⟩ : ∃ k, marks = k + 1 := ⟨marks - 1, by omega⟩
      simp [ofText, Input.fst_read_nil hrest, List.replicate_succ]

namespace DFA

variable {V : Type} {d : DFA V}

/-- What a word is accepted for. -/
def output? (d : DFA V) (w : List Int) : Option V := (d.run? d.start w).bind d.value?

/-- The longest accepted prefix of `ps` that is not empty: its length, and what it is accepted for. -/
def Longest (d : DFA V) (ps : List Int) : Option (Nat × V) → Prop
  | none => ∀ m, 0 < m → m ≤ ps.length → d.output? (ps.take m) = none
  | some (k, v) => 0 < k ∧ k ≤ ps.length ∧ d.output? (ps.take k) = some v ∧
      ∀ m, k < m → m ≤ ps.length → d.output? (ps.take m) = none

/-- A word that is not followed has no accepted continuation. -/
theorem output?_append_eq_none {u : List Int} (h : d.run? d.start u = none) (w : List Int) :
    d.output? (u ++ w) = none := by
  simp [output?, run?_append, h]

theorem size_pos_of_output? {w : List Int} {v : V} (h : d.output? w = some v) : 0 < d.size := by
  rcases Option.bind_eq_some_iff.1 h with ⟨q, -, hv⟩
  unfold value? at hv
  split at hv
  · rename_i s hs
    have hlt := (Array.getElem?_eq_some_iff.1 hs).1
    exact Nat.lt_of_le_of_lt (Nat.zero_le q) hlt
  · exact absurd hv (by simp)

namespace Longest

variable {u ps : List Int} {b : Option (Nat × V)}

theorem nil : d.Longest [] none := by
  intro m hm hle
  simp only [List.length_nil] at hle
  omega

/-- More code points behind an accepted prefix, none of which is accepted. -/
theorem append (h : d.Longest u b)
    (hnone : ∀ m, u.length < m → m ≤ (u ++ ps).length → d.output? ((u ++ ps).take m) = none) :
    d.Longest (u ++ ps) b := by
  have hold : ∀ m, m ≤ u.length → (u ++ ps).take m = u.take m :=
    fun m hm => List.take_append_of_le_length hm
  cases b with
  | none =>
      intro m hpos hle
      by_cases hm : m ≤ u.length
      · rw [hold m hm]
        exact h m hpos hm
      · exact hnone m (by omega) hle
  | some kv =>
      rcases h with ⟨hpos, hk, hout, hrest⟩
      refine ⟨hpos, by simp only [List.length_append]; omega, by rw [hold _ hk]; exact hout, ?_⟩
      intro m hlt hle
      by_cases hm : m ≤ u.length
      · rw [hold m hm]
        exact hrest m hlt hm
      · exact hnone m (by omega) hle

/-- One more code point: a longer accepted prefix takes the place of the one before. -/
theorem snoc (h : d.Longest u b) (p : Int) :
    d.Longest (u ++ [p]) (match d.output? (u ++ [p]) with
      | some v => some (u.length + 1, v)
      | none => b) := by
  have hlast : ∀ m, u.length < m → m ≤ (u ++ [p]).length → (u ++ [p]).take m = u ++ [p] :=
    fun m hlt _ => List.take_of_length_le (by simp only [List.length_append, List.length_singleton]; omega)
  cases hout : d.output? (u ++ [p]) with
  | some v =>
      refine ⟨by omega, by simp, ?_, ?_⟩
      · rw [hlast _ (by omega) (by simp)]
        exact hout
      · intro m hlt hle
        simp only [List.length_append, List.length_singleton] at hle
        omega
  | none =>
      refine h.append fun m hlt hle => ?_
      rw [hlast m hlt hle]
      exact hout

/-- Where there is no edge, nothing longer is accepted. -/
theorem dead (h : d.Longest u b) {p : Int} (hp : d.run? d.start (u ++ [p]) = none) :
    d.Longest (u ++ p :: ps) b := by
  refine h.append fun m hlt _ => ?_
  have hsplit : (u ++ p :: ps).take m = (u ++ [p]) ++ ps.take (m - (u.length + 1)) := by
    have hcons : u ++ p :: ps = (u ++ [p]) ++ ps := by simp
    rw [hcons, List.take_append, List.take_of_length_le (by simp; omega)]
    simp
  rw [hsplit]
  exact output?_append_eq_none hp _

/-- There is one longest accepted prefix. -/
theorem unique {b' : Option (Nat × V)} (h : d.Longest ps b) (h' : d.Longest ps b') : b = b' := by
  cases b with
  | none =>
      cases b' with
      | none => rfl
      | some kv => exact absurd h'.2.2.1 (by simp [h kv.1 h'.1 h'.2.1])
  | some kv =>
      cases b' with
      | none => exact absurd h.2.2.1 (by simp [h' kv.1 h.1 h.2.1])
      | some kv' =>
          -- Neither prefix is longer than the other.
          have hle : ¬ kv.1 < kv'.1 := fun hlt =>
            absurd h'.2.2.1 (by simp [h.2.2.2 kv'.1 hlt h'.2.1])
          have hge : ¬ kv'.1 < kv.1 := fun hlt =>
            absurd h.2.2.1 (by simp [h'.2.2.2 kv.1 hlt h.2.1])
          have hk : kv.1 = kv'.1 := by omega
          have hv : kv.2 = kv'.2 := Option.some.inj (by rw [← h.2.2.1, ← h'.2.2.1, hk])
          rw [Prod.ext hk hv]

end Longest

end DFA

namespace Walk

variable {V : Type} {d : DFA V}

/-- A walk along a list of code points. -/
def along (d : DFA V) (w : Walk V) : List Int → Walk V
  | [] => w
  | p :: ps =>
    match w.step? d p with
    | none => w
    | some w => along d w ps

/-- The walk `w` has followed the word `u` and knows its longest accepted prefix. -/
structure Along (d : DFA V) (u : List Int) (w : Walk V) : Prop where
  run : d.run? d.start u = some w.state
  steps : w.steps = u.length
  best : d.Longest u w.best

theorem Along.start (d : DFA V) : Along d [] { state := d.start } where
  run := rfl
  steps := rfl
  best := DFA.Longest.nil

theorem Along.step {u : List Int} {w w' : Walk V} (h : Along d u w) {p : Int}
    (hstep : w.step? d p = some w') : Along d (u ++ [p]) w' := by
  unfold step? at hstep
  split at hstep
  · exact absurd hstep (by simp)
  · rename_i q hq
    have hrun : d.run? d.start (u ++ [p]) = some q := by
      rw [DFA.run?_snoc, h.run]
      exact hq
    have hbest := h.best.snoc p
    have hout : d.output? (u ++ [p]) = d.value? q := by
      simp [DFA.output?, hrun]
    rw [hout, ← h.steps] at hbest
    obtain rfl := Option.some.inj hstep
    exact
      { run := hrun
        steps := by simp [h.steps]
        best := hbest }

theorem Along.stop {u : List Int} {w : Walk V} (h : Along d u w) {p : Int} (ps : List Int)
    (hstep : w.step? d p = none) : d.Longest (u ++ p :: ps) w.best := by
  refine h.best.dead ?_
  rw [DFA.run?_snoc, h.run]
  unfold step? at hstep
  split at hstep
  · assumption
  · exact absurd hstep (by simp)

/-- A walk knows the longest accepted prefix of what it goes along. -/
theorem Along.longest {u : List Int} {w : Walk V} (h : Along d u w) (ps : List Int) :
    d.Longest (u ++ ps) (along d w ps).best := by
  -- The word that was followed grows by one code point with each step.
  induction ps generalizing u w with
  | nil =>
      rw [List.append_nil]
      exact h.best
  | cons p ps ih =>
      rw [along]
      split
      · rename_i hstep
        exact h.stop ps hstep
      · rename_i w' hstep
        simpa using ih (h.step hstep)

theorem Along.exists_along {u : List Int} {w : Walk V} (h : Along d u w) (ps : List Int) :
    ∃ v, Along d v (along d w ps) := by
  induction ps generalizing u w with
  | nil =>
      exact ⟨u, h⟩
  | cons p ps ih =>
      rw [along]
      split
      · exact ⟨u, h⟩
      · rename_i w' hstep
        exact ih (h.step hstep)

/-- The longest accepted prefix is not longer than the walk. -/
theorem Along.le_steps {u : List Int} {w : Walk V} (h : Along d u w) {k : Nat} {v : V}
    (hbest : w.best = some (k, v)) : k ≤ w.steps := by
  have hlongest := h.best
  rw [hbest] at hlongest
  rw [h.steps]
  exact hlongest.2.1

/-- A walk over an input goes along what was read ahead, the characters of the input, and the end marks
that it may read. -/
theorem advance_walk (d : DFA V) (w : Walk V) (ahead : List Int) (input : Input) (fresh : List Int)
    (marks : Nat) :
    (advance d w ahead input fresh marks).walk = along d w (ahead ++ ofText input.rest marks) := by
  fun_induction advance d w ahead input fresh marks with
  | case1 w input fresh marks p ahead hstep =>
      simp [along, hstep]
  | case2 w input fresh marks p ahead w' hstep ih =>
      simpa [along, hstep] using ih
  | case3 w input fresh marks h =>
      simp [ofText, h.1, h.2, along]
  | case4 w input fresh marks h r hstep =>
      rw [List.nil_append, Input.ofText_read h, along, hstep]
  | case5 w input fresh marks h r w' hstep ih =>
      rw [List.nil_append, Input.ofText_read h, along, hstep]
      simpa using ih

/-- A walk goes along no more than what was read ahead and what it has read itself. -/
theorem steps_advance_le (d : DFA V) (w : Walk V) (ahead : List Int) (input : Input)
    (fresh : List Int) (marks : Nat) :
    (advance d w ahead input fresh marks).walk.steps + fresh.length ≤
      w.steps + ahead.length + (advance d w ahead input fresh marks).fresh.length := by
  have hone : ∀ {w w' : Walk V} {p : Int}, w.step? d p = some w' → w'.steps = w.steps + 1 := by
    intro w w' p hstep
    unfold step? at hstep
    split at hstep
    · exact absurd hstep (by simp)
    · rw [← Option.some.inj hstep]
  fun_induction advance d w ahead input fresh marks with
  | case1 w input fresh marks p ahead hstep =>
      simp only [List.length_cons]
      omega
  | case2 w input fresh marks p ahead w' hstep ih =>
      have := hone hstep
      simp only [List.length_cons]
      omega
  | case3 w input fresh marks h =>
      simp
  | case4 w input fresh marks h r hstep =>
      simp only [List.length_cons]
      omega
  | case5 w input fresh marks h r w' hstep ih =>
      have := hone hstep
      simp only [List.length_cons, dite_eq_ite] at ih
      omega

end Walk

namespace Scanner

@[simp] theorem characters_ofText (cs : List Char) (marks : Nat) :
    characters (ofText cs marks) = cs := by
  have hmarks : ∀ k, characters (List.replicate k endMark) = [] := by
    intro k
    simp [characters]
  have hcs : characters (cs.map ofChar) = cs := by
    simp [characters, List.filterMap_map]
  rw [ofText, characters_append, hmarks, hcs, List.append_nil]

/-- Characters, and end marks behind them if there are no more characters. -/
def Buffered (ps : List Int) (rest : List Char) : Prop :=
  ∃ cs marks, ps = ofText cs marks ∧ (0 < marks → rest = [])

namespace Buffered

variable {ps : List Int} {rest : List Char}

theorem nil (rest : List Char) : Buffered [] rest :=
  ⟨[], 0, rfl, fun h => absurd h (by omega)⟩

theorem read {i : Input} (h : Buffered ps i.rest) : Buffered (ps ++ [i.read.1]) i.read.2.rest := by
  rcases h with ⟨cs, marks, rfl, hmarks⟩
  rw [Input.rest_read]
  cases hrest : i.rest with
  | cons c rest =>
      -- There is a character, so no end mark was read.
      have hzero : marks = 0 := by
        by_contra hne
        rw [hmarks (by omega)] at hrest
        exact absurd hrest (by simp)
      subst hzero
      refine ⟨cs ++ [c], 0, ?_, fun h => absurd h (by omega)⟩
      simp [ofText, Input.fst_read_cons hrest]
  | nil =>
      refine ⟨cs, marks + 1, ?_, fun _ => rfl⟩
      simp [ofText, Input.fst_read_nil hrest, List.replicate_succ']

theorem drop (h : Buffered ps rest) (k : Nat) : Buffered (ps.drop k) rest := by
  rcases h with ⟨cs, marks, rfl, hmarks⟩
  refine ⟨cs.drop k, marks - (k - cs.length), ?_, fun hpos => hmarks (by omega)⟩
  simp [ofText, List.drop_append, List.map_drop]

/-- What was read ahead and what is to come are the characters of one text, and end marks behind it. -/
theorem append_ofText (h : Buffered ps rest) (marks : Nat) :
    ∃ k, marks ≤ k ∧ ps ++ ofText rest marks = ofText (characters ps ++ rest) k := by
  rcases h with ⟨cs, k, rfl, hk⟩
  rw [characters_ofText]
  rcases Nat.eq_zero_or_pos k with rfl | hpos
  · exact ⟨marks, Nat.le_refl _, by simp [ofText]⟩
  · rw [hk hpos]
    refine ⟨k + marks, by omega, ?_⟩
    simp [ofText]

end Buffered

variable {V : Type} {d : DFA V}

theorem buffered_advance (w : Walk V) (ahead : List Int) (input : Input) (fresh before : List Int)
    (marks : Nat) (h : Buffered (before ++ fresh.reverse) input.rest) :
    Buffered (before ++ (Walk.advance d w ahead input fresh marks).fresh.reverse)
      (Walk.advance d w ahead input fresh marks).input.rest := by
  fun_induction Walk.advance d w ahead input fresh marks with
  | case1 => exact h
  | case2 w input fresh marks p ahead w' hstep ih => exact ih h
  | case3 => exact h
  | case4 w input fresh marks hmarks r hstep =>
      simpa using h.read
  | case5 w input fresh marks hmarks r w' hstep ih =>
      exact ih (by simpa using h.read)

theorem buffered_keep_walk {s : Scanner V} (h : Buffered s.ahead s.input.rest) :
    Buffered (s.keep s.walk).ahead (s.keep s.walk).input.rest := by
  rw [keep_ahead]
  exact buffered_advance _ _ _ _ _ _ (by simpa using h)

/-- Two texts with end marks behind them begin alike as far as both have end marks. -/
theorem take_ofText (cs : List Char) {j k n : Nat} (hj : n ≤ cs.length + j) (hk : n ≤ cs.length + k) :
    (ofText cs j).take n = (ofText cs k).take n := by
  simp only [ofText, List.take_append, List.length_map, List.take_replicate]
  rw [Nat.min_eq_left (by omega), Nat.min_eq_left (by omega)]

/-- What a walk has kept is the beginning of what there was to come. -/
theorem take_keep_walk {s : Scanner V} (h : Buffered s.ahead s.input.rest) {n k : Nat}
    (hn : n ≤ (s.keep s.walk).ahead.length) (hk : n ≤ s.text.length + k) :
    (s.keep s.walk).ahead.take n = (ofText s.text k).take n := by
  have hbuf := buffered_keep_walk h
  have htext := text_keep_walk s
  rcases hbuf with ⟨cs, marks, hahead, hmarks⟩
  have hcs : s.text = cs ++ (s.keep s.walk).input.rest := by
    rw [← htext, text, hahead, characters_ofText]
  rw [hahead] at hn ⊢
  -- End marks were kept only if there are no more characters.
  rcases Nat.eq_zero_or_pos marks with rfl | hpos
  · have hle : n ≤ (cs.map ofChar).length := by simpa [ofText] using hn
    rw [hcs, ofText, ofText, List.map_append, List.append_assoc, List.take_append_of_le_length hle,
      List.take_append_of_le_length hle]
  · rw [hmarks hpos, List.append_nil] at hcs
    have hle : n ≤ cs.length + marks := by simpa [ofText] using hn
    rw [hcs] at hk ⊢
    exact take_ofText cs hle hk

/-! ## One match -/

theorem walk_longest {s : Scanner V} (h : Buffered s.ahead s.input.rest) :
    ∃ marks, s.automaton.size ≤ marks ∧
      s.automaton.Longest (ofText s.text marks) s.walk.walk.best := by
  rcases h.append_ofText s.automaton.size with ⟨marks, hle, htext⟩
  have hlongest := (Walk.Along.start s.automaton).longest (ofText s.text marks)
  refine ⟨marks, hle, ?_⟩
  rw [walk, Walk.advance_walk, htext]
  exact hlongest

theorem le_length_keep {s : Scanner V} {k : Nat} {v : V} (hbest : s.walk.walk.best = some (k, v)) :
    k ≤ (s.keep s.walk).ahead.length := by
  have hsteps := Walk.steps_advance_le s.automaton { state := s.automaton.start } s.ahead s.input []
    s.automaton.size
  have hle : k ≤ s.walk.walk.steps := by
    have hwalk : s.walk.walk = _ := Walk.advance_walk _ _ _ _ _ _
    rcases (Walk.Along.start s.automaton).exists_along
      (s.ahead ++ ofText s.input.rest s.automaton.size) with ⟨u, hu⟩
    rw [hwalk] at hbest ⊢
    exact hu.le_steps hbest
  rw [keep_ahead, List.length_append, List.length_reverse]
  unfold walk at hle ⊢
  simp only [List.length_nil] at hsteps
  omega

/-- What `tryNext` takes off the text: `k` code points with the value `v`. Only the last one can be an end
mark. -/
structure Takes (s : Scanner V) (k : Nat) (v : V) : Prop where
  found : s.tryNext.1 = some { value := v, capture := String.ofList (s.text.take k) }
  position : s.tryNext.2.position = s.position + k
  exhausted : s.tryNext.2.exhausted = decide (s.text.length < k)
  text : s.tryNext.2.text = s.text.drop k

/-- A prefix of the text is taken as a capture. -/
theorem Takes.of_prefix {s : Scanner V} {u : List Char} {v : V} (h : s.Takes u.length v)
    (hu : u <+: s.text) :
    s.tryNext.1 = some { value := v, capture := String.ofList u } ∧
      s.tryNext.2.position = s.position + u.length ∧ s.tryNext.2.exhausted = false := by
  refine ⟨?_, h.position, ?_⟩
  · rw [h.found, ← List.prefix_iff_eq_take.1 hu]
  · rw [h.exhausted]
    exact decide_eq_false (Nat.not_lt.2 hu.length_le)

/-- Taking the end of the text captures nothing and exhausts the scanner. -/
theorem Takes.of_end {s : Scanner V} {v : V} (h : s.Takes 1 v) (hnil : s.text = []) :
    s.tryNext.1 = some { value := v, capture := "" } ∧ s.tryNext.2.exhausted = true := by
  refine ⟨?_, ?_⟩
  · rw [h.found, hnil]
    rfl
  · rw [h.exhausted, hnil]
    rfl

/-- What `tryNext` does if no prefix is accepted: it answers what the start accepts, and takes nothing. -/
structure Stays (s : Scanner V) : Prop where
  found : s.tryNext.1 = (s.automaton.value? s.automaton.start).map fun v => { value := v, capture := "" }
  position : s.tryNext.2.position = s.position
  exhausted : s.tryNext.2.exhausted = false
  text : s.tryNext.2.text = s.text

theorem take_ofText_eq (cs : List Char) (marks k : Nat) :
    (ofText cs marks).take k = ofText (cs.take k) (min (k - cs.length) marks) := by
  simp [ofText, List.take_append, List.map_take, List.take_replicate]

theorem any_toChar?_ofText (cs : List Char) (marks : Nat) :
    ((ofText cs marks).any fun p => (toChar? p).isNone) = decide (0 < marks) := by
  cases marks with
  | zero =>
      simp [ofText]
  | succ k =>
      simp [ofText]

theorem takes_of_best {s : Scanner V} (hbuf : Buffered s.ahead s.input.rest)
    (hx : s.exhausted = false) {k marks : Nat} {v : V} (hbest : s.walk.walk.best = some (k, v))
    (hk : k ≤ s.text.length + marks) : s.Takes k v := by
  have htake : (s.keep s.walk).ahead.take k =
      ofText (s.text.take k) (min (k - s.text.length) marks) := by
    rw [take_keep_walk hbuf (le_length_keep hbest) hk, take_ofText_eq]
  have hlen : ((s.keep s.walk).ahead.take k).length = k :=
    List.length_take_of_le (le_length_keep hbest)
  have hnext : s.tryNext =
      (some { value := v, capture := ((s.keep s.walk).take k).1 }, ((s.keep s.walk).take k).2) := by
    unfold tryNext
    rw [if_neg (by simp [hx])]
    simp only [hbest]
  have hcapture : ((s.keep s.walk).take k).1 = String.ofList (s.text.take k) := by
    simp only [take, htake, characters_ofText]
  refine
    { found := by rw [hnext, hcapture]
      position := by
        rw [hnext, position_take, position_keep, hlen]
      exhausted := by
        rw [hnext]
        simp only [take, htake, any_toChar?_ofText]
        refine decide_eq_decide.2 ?_
        omega
      text := ?_ }
  -- The capture and what is left make up the text from before.
  have htext := text_take (s.keep s.walk) k
  rw [hcapture, text_keep_walk, String.toList_ofList] at htext
  rw [hnext]
  have hsplit := htext.trans (List.take_append_drop k s.text).symm
  exact List.append_cancel_left hsplit

theorem stays_of_best {s : Scanner V} (hx : s.exhausted = false)
    (hbest : s.walk.walk.best = none) : s.Stays := by
  have hnext : s.tryNext = ((s.automaton.value? s.automaton.start).map fun v =>
      { value := v, capture := "" }, s.keep s.walk) := by
    unfold tryNext
    rw [if_neg (by simp [hx])]
    simp only [hbest]
    have hkeep : (s.keep s.walk).automaton = s.automaton := rfl
    rw [hkeep]
    cases s.automaton.value? s.automaton.start <;> rfl
  exact
    { found := by rw [hnext]
      position := by rw [hnext, position_keep]
      exhausted := by rw [hnext]; exact hx
      text := by rw [hnext]; exact text_keep_walk s }

/-- The longest accepted prefix of what is to come is taken. -/
theorem tryNext_spec {s : Scanner V} (hbuf : Buffered s.ahead s.input.rest)
    (hx : s.exhausted = false) :
    ∃ marks, s.automaton.size ≤ marks ∧
      ((∃ k v, s.automaton.Longest (ofText s.text marks) (some (k, v)) ∧ s.Takes k v) ∨
        s.automaton.Longest (ofText s.text marks) none ∧ s.Stays) := by
  rcases walk_longest hbuf with ⟨marks, hmarks, hlongest⟩
  refine ⟨marks, hmarks, ?_⟩
  cases hbest : s.walk.walk.best with
  | none =>
      rw [hbest] at hlongest
      exact Or.inr ⟨hlongest, stays_of_best hx hbest⟩
  | some kv =>
      rw [hbest] at hlongest
      have hk : kv.1 ≤ s.text.length + marks := by simpa [ofText] using hlongest.2.1
      exact Or.inl ⟨kv.1, kv.2, hlongest, takes_of_best hbuf hx hbest hk⟩

theorem automaton_tryNext (s : Scanner V) : s.tryNext.2.automaton = s.automaton := by
  unfold tryNext
  split
  · rfl
  · dsimp only
    split
    · rfl
    · split <;> rfl

theorem buffered_tryNext {s : Scanner V} (h : Buffered s.ahead s.input.rest) :
    Buffered s.tryNext.2.ahead s.tryNext.2.input.rest := by
  have hkeep := buffered_keep_walk h
  unfold tryNext
  split
  · exact h
  · dsimp only
    split
    · exact hkeep.drop _
    · split <;> exact hkeep

/-- The scanner reads with the automaton `d`, and its buffer holds what comes next in its text. -/
structure Ready (d : DFA V) (s : Scanner V) : Prop where
  automaton : s.automaton = d
  buffered : Buffered s.ahead s.input.rest

theorem ready_ofString (d : DFA V) (text : String) : Ready d (ofString d text) :=
  ⟨rfl, Buffered.nil _⟩

theorem Ready.tryNext {s : Scanner V} (h : Ready d s) : Ready d s.tryNext.2 :=
  ⟨(automaton_tryNext s).trans h.automaton, buffered_tryNext h.buffered⟩

theorem tryNext_of_exhausted {s : Scanner V} (h : s.exhausted = true) : s.tryNext = (none, s) := by
  simp [Scanner.tryNext, h]

/-! ## All scanners of one text -/

/-- The scanners that calls of `tryNext` and `next` lead to, in any order. -/
inductive Reached (m : Matcher V) (text : String) : Scanner V → Prop where
  | scan : Reached m text (m.scan text)
  | tryNext {s : Scanner V} : Reached m text s → Reached m text s.tryNext.2
  | next {s : Scanner V} : Reached m text s → Reached m text s.next.2

/-- The scanner stands at its position in the text. -/
structure Stands (m : Matcher V) (text : String) (s : Scanner V) : Prop where
  automaton : s.automaton = m.automaton
  buffered : Buffered s.ahead s.input.rest
  text : s.exhausted = false → s.text = text.toList.drop s.position

theorem Stands.tryNext {m : Matcher V} {text : String} {s : Scanner V} (h : Stands m text s) :
    Stands m text s.tryNext.2 where
  automaton := (automaton_tryNext s).trans h.automaton
  buffered := buffered_tryNext h.buffered
  text := by
    intro hx'
    cases hx : s.exhausted with
    | true =>
        have hnext : s.tryNext.2 = s := by simp [Scanner.tryNext, hx]
        rw [hnext, hx] at hx'
        exact absurd hx' (by simp)
    | false =>
        rcases tryNext_spec h.buffered hx with ⟨marks, -, ⟨k, v, -, htakes⟩ | ⟨-, hstays⟩⟩
        · rw [htakes.text, htakes.position, h.text hx, List.drop_drop]
        · rw [hstays.text, hstays.position, h.text hx]

theorem Reached.stands {m : Matcher V} {text : String} {s : Scanner V} (h : Reached m text s) :
    Stands m text s := by
  induction h with
  | scan =>
      exact ⟨rfl, Buffered.nil _, fun _ => rfl⟩
  | tryNext _ ih =>
      exact ih.tryNext
  | @next s _ ih =>
      have hnext := ih.tryNext
      unfold Scanner.next
      split
      · exact ih
      · -- Iteration changes nothing but its own mark.
        split
        · rename_i s' heq
          rw [heq] at hnext
          exact hnext
        · rename_i match' s' heq
          rw [heq] at hnext
          exact ⟨hnext.automaton, hnext.buffered, hnext.text⟩

end Scanner

end MaximalMunch
