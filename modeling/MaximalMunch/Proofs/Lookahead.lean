import MaximalMunch.Proofs.Scanning
import MaximalMunch.Scanner.Calls

/-!
# What is read ahead leaves no trace

Calls of `tryNext` and `next` may follow one another in any order. What they answer depends on the position
in the text alone, not on what earlier calls have read ahead.

- `Scanner.Finds`                   : what there is to find at the beginning of a text, and `Finds.unique`
- `Scanner.Recounts`                : the scanner stands where the answers so far have led
- `Recounts.call`, `Recounts.calls` : one more call keeps this, and so do all calls
- `Scanner.calls_correct`           : buffer, position and answers after any calls
-/

namespace MaximalMunch

open CodePoint

namespace Scanner

variable {V : Type}

/-- A call of `next` has come to a match with an empty capture. -/
def Ended (as : List (Answer V)) : Prop := ∃ m : Match V, (Call.next, some m) ∈ as ∧ m.capture = ""

theorem ended_concat_iff {as : List (Answer V)} {a : Answer V} :
    Ended (as ++ [a]) ↔ Ended as ∨ ∃ m : Match V, a = (.next, some m) ∧ m.capture = "" := by
  simp only [Ended, List.mem_append, List.mem_singleton]
  constructor
  · rintro ⟨m, hm | hm, hempty⟩
    · exact Or.inl ⟨m, hm, hempty⟩
    · exact Or.inr ⟨m, hm.symm, hempty⟩
  · rintro (⟨m, hm, hempty⟩ | ⟨m, hm, hempty⟩)
    · exact ⟨m, Or.inl hm, hempty⟩
    · exact ⟨m, Or.inr hm.symm, hempty⟩

/-! ## `next` beside `tryNext` -/

theorem next_of_stalled {s : Scanner V} (h : s.stalled = true) : s.next = (none, s) := by
  simp [next, h]

/-- Before the end of an iteration `next` answers what `tryNext` does, and only its own mark is new. -/
theorem next_of_not_stalled {s : Scanner V} (h : s.stalled = false) :
    s.next = (s.tryNext.1,
      { s.tryNext.2 with stalled := s.tryNext.1.elim s.tryNext.2.stalled Match.isEmpty }) := by
  unfold next
  rw [if_neg (by simp [h])]
  rcases s.tryNext with ⟨_ | m, s'⟩ <;> rfl

theorem stalled_tryNext (s : Scanner V) : s.tryNext.2.stalled = s.stalled := by
  unfold tryNext
  split
  · rfl
  · dsimp only
    split
    · rfl
    · split <;> rfl

/-! ## What there is to find -/

section Finding

variable [DecidableEq V] {d : Dialect} {rules : List (Rule V)} {c : Compiler V} {m : Matcher V}

/-- What a scanner finds at the beginning of the text `r`. -/
inductive Finds (d : Dialect) (rules : List (Rule V)) (m : Matcher V) (r : List Char) :
    Option (Match V) → Prop where
  | longest {u : List Char} {v : V} :
      u ≠ [] → u <+: r → Rule.Matched d rules u →
      (∀ u', u' <+: r → Rule.Matched d rules u' → u'.length ≤ u.length) →
      m.automaton.output? (ofText u 0) = some v →
      Finds d rules m r (some { value := v, capture := String.ofList u })
  | endOfText {v : V} :
      r = [] → v ∈ Rule.endValues rules → Finds d rules m r (some { value := v, capture := "" })
  | start :
      (∀ u, u ≠ [] → u <+: r → ¬ Rule.Matched d rules u) → (r = [] → Rule.endValues rules = []) →
      Finds d rules m r
        ((m.automaton.value? m.automaton.start).map fun v => { value := v, capture := "" })

/-- There is one thing to find. -/
theorem Finds.unique (h : Compiler.Collects d rules c) (hm : c.compile = .ok m) {r : List Char}
    {a b : Option (Match V)} (ha : Finds d rules m r a) (hb : Finds d rules m r b) : a = b := by
  cases ha with
  | @longest u v hne hu hmatched hlongest hout =>
      cases hb with
      | @longest u' v' hne' hu' hmatched' hlongest' hout' =>
          -- Prefixes of one length are equal.
          have hlen : u.length = u'.length :=
            Nat.le_antisymm (hlongest' u hu hmatched) (hlongest u' hu' hmatched')
          obtain rfl : u = u' := (List.prefix_of_prefix_length_le hu hu' (Nat.le_of_eq hlen)).eq_of_length hlen
          obtain rfl : v = v' := Option.some.inj (hout.symm.trans hout')
          rfl
      | endOfText hnil =>
          rw [hnil] at hu
          exact absurd (List.prefix_nil.1 hu) hne
      | start hnone =>
          exact absurd hmatched (hnone u hne hu)
  | @endOfText v hnil hv =>
      cases hb with
      | longest hne hu =>
          rw [hnil] at hu
          exact absurd (List.prefix_nil.1 hu) hne
      | endOfText _ hv' =>
          rw [h.endValue_unique hm hv hv']
      | start _ hend =>
          rw [hend hnil] at hv
          exact absurd hv (by simp)
  | start hnone hend =>
      cases hb with
      | longest hne hu hmatched =>
          exact absurd hmatched (hnone _ hne hu)
      | endOfText hnil hv =>
          rw [hend hnil] at hv
          exact absurd hv (by simp)
      | start =>
          rfl

theorem finds_tryNext (h : Compiler.Collects d rules c) (hm : c.compile = .ok m) {s : Scanner V}
    (hs : Ready m.automaton s) (hx : s.exhausted = false) : Finds d rules m s.text s.tryNext.1 := by
  rcases tryNext_cases h hm hs.automaton hs.buffered hx with
    ⟨u, v, ⟨hne, hu, hmatched⟩, hlongest, hout, htakes⟩ | ⟨hnil, v, hv, htakes⟩ | ⟨hnone, hend, hstays⟩
  · rw [(htakes.of_prefix hu).1]
    exact .longest hne hu hmatched hlongest hout
  · rw [(htakes.of_end hnil).1]
    exact .endOfText hnil hv
  · rw [hstays.found, hs.automaton]
    exact .start hnone hend

/-- What `tryNext` finds depends on the rest of the text only, and not on how much of it was read ahead. -/
theorem tryNext_congr (h : Compiler.Collects d rules c) (hm : c.compile = .ok m) {s s' : Scanner V}
    (hs : Ready m.automaton s) (hs' : Ready m.automaton s') (hx : s.exhausted = false) (hx' : s'.exhausted = false)
    (htext : s.text = s'.text) : s.tryNext.1 = s'.tryNext.1 := by
  have hfinds := finds_tryNext h hm hs hx
  rw [htext] at hfinds
  exact hfinds.unique h hm (finds_tryNext h hm hs' hx')

/-- A call moves the position by the length of its capture, and by one more if it exhausts the scanner. -/
theorem position_tryNext (h : Compiler.Collects d rules c) (hm : c.compile = .ok m) {s : Scanner V}
    (hs : Ready m.automaton s) (hx : s.exhausted = false) :
    s.tryNext.2.position =
      s.position + (captureOf s.tryNext.1).length + if s.tryNext.2.exhausted then 1 else 0 := by
  rcases tryNext_cases h hm hs.automaton hs.buffered hx with
    ⟨u, v, ⟨-, hu, -⟩, -, -, htakes⟩ | ⟨hnil, v, -, htakes⟩ | ⟨-, -, hstays⟩
  · rcases htakes.of_prefix hu with ⟨hfound, hposition, hexhausted⟩
    simp [hfound, hposition, hexhausted, captureOf]
  · rcases htakes.of_end hnil with ⟨hfound, hexhausted⟩
    simp [hfound, htakes.position, hexhausted, captureOf]
  · rw [hstays.found, hstays.position, hstays.exhausted]
    cases s.automaton.value? s.automaton.start <;> simp [captureOf]

end Finding

/-! ## Calls in any order -/

/-- The scanner stands where the answers so far have led. -/
structure Recounts (m : Matcher V) (text : String) (as : List (Answer V)) (s : Scanner V) : Prop
    extends Ready m.automaton s where
  text : captured as ++ s.text = text.toList
  position : s.position = (captured as).length + if s.exhausted then 1 else 0
  stalled : s.stalled = true ↔ Ended as

theorem recounts_scan (m : Matcher V) (text : String) : Recounts m text [] (m.scan text) where
  toReady := ready_ofString _ _
  text := rfl
  position := rfl
  stalled := by simp [Ended, Matcher.scan, ofString]

namespace Recounts

variable {m : Matcher V} {text : String} {as : List (Answer V)} {s : Scanner V}

/-- Before its end the scanner has just the rest of the text behind its position. -/
theorem text_eq_drop (hs : Recounts m text as s) (hx : s.exhausted = false) :
    s.text = text.toList.drop s.position := by
  have hposition : s.position = (captured as).length := by
    rw [hs.position, hx]
    simp
  rw [← hs.text, hposition, List.drop_left]

variable [DecidableEq V] {d : Dialect} {rules : List (Rule V)} {c : Compiler V}

theorem tryNext (h : Compiler.Collects d rules c) (hm : c.compile = .ok m)
    (hs : Recounts m text as s) : Recounts m text (as ++ [(.tryNext, s.tryNext.1)]) s.tryNext.2 where
  toReady := hs.toReady.tryNext
  text := by
    rw [captured_concat, List.append_assoc, ← hs.text]
    exact congrArg (captured as ++ ·) s.tryNext_text
  position := by
    cases hx : s.exhausted with
    | true =>
        have hposition := hs.position
        rw [tryNext_of_exhausted hx]
        simpa [captureOf] using hposition
    | false =>
        have hposition := hs.position
        rw [position_tryNext h hm hs.toReady hx, hposition, hx, captured_concat, List.length_append]
        simp
  stalled := by
    rw [stalled_tryNext, hs.stalled, ended_concat_iff]
    simp

theorem next (h : Compiler.Collects d rules c) (hm : c.compile = .ok m)
    (hs : Recounts m text as s) : Recounts m text (as ++ [(.next, s.next.1)]) s.next.2 := by
  cases hstalled : s.stalled with
  | true =>
      rw [next_of_stalled hstalled]
      refine { hs with text := ?_, position := ?_, stalled := ?_ }
      · simpa [captureOf] using hs.text
      · simpa [captureOf] using hs.position
      · simpa [ended_concat_iff] using hs.stalled
  | false =>
      have htry := hs.tryNext h hm
      have hended : ¬ Ended as := fun hended => by simp [hs.stalled.2 hended] at hstalled
      rw [next_of_not_stalled hstalled]
      refine
        { automaton := htry.automaton
          buffered := htry.buffered
          text := ?_
          position := ?_
          stalled := ?_ }
      · have htext := htry.text
        rw [captured_concat] at htext ⊢
        exact htext
      · have hposition := htry.position
        rw [captured_concat] at hposition ⊢
        exact hposition
      · -- The mark is set by an empty capture, which is the first one of an iteration.
        rw [ended_concat_iff]
        cases hfound : s.tryNext.1 with
        | none =>
            simp [stalled_tryNext, hstalled, hended]
        | some found =>
            simp [hended, Match.isEmpty]

/-- One more call. -/
theorem call (h : Compiler.Collects d rules c) (hm : c.compile = .ok m) (hs : Recounts m text as s)
    (k : Call) : Recounts m text (as ++ [(k, (s.call k).1)]) (s.call k).2 := by
  cases k with
  | tryNext => exact hs.tryNext h hm
  | next => exact hs.next h hm

/-- Any number of calls. -/
theorem calls (h : Compiler.Collects d rules c) (hm : c.compile = .ok m) (hs : Recounts m text as s)
    (ks : List Call) : Recounts m text (as ++ (s.calls ks).1) (s.calls ks).2 := by
  induction ks generalizing as s with
  | nil =>
      simpa [Scanner.calls] using hs
  | cons k ks ih =>
      simpa [Scanner.calls] using ih (hs.call h hm k)

end Recounts

variable [DecidableEq V] {d : Dialect} {rules : List (Rule V)} {c : Compiler V} {m : Matcher V}

/-- After any calls on a scanner: the captures, what was read ahead and the unread input make up the text;
the position counts the captured characters, and the end of the text if the scanner is exhausted; `tryNext`
finds what a new scanner finds in the rest of the text; and `next` finds the same until it has answered with
an empty capture, and nothing from then on. -/
theorem calls_correct (h : Compiler.Collects d rules c) (hm : c.compile = .ok m) (text : String)
    (ks : List Call) :
    let as := ((m.scan text).calls ks).1
    let s := ((m.scan text).calls ks).2
    captured as ++ (characters s.ahead ++ s.input.rest) = text.toList ∧
    s.position = (captured as).length + (if s.exhausted then 1 else 0) ∧
    (s.exhausted = true → s.tryNext.1 = none) ∧
    (s.exhausted = false →
      s.tryNext.1 = (m.scan (String.ofList (text.toList.drop s.position))).tryNext.1) ∧
    (¬ Ended as → s.next.1 = s.tryNext.1) ∧
    (Ended as → s.next.1 = none) := by
  have hs : Recounts m text ((m.scan text).calls ks).1 ((m.scan text).calls ks).2 := by
    simpa using (recounts_scan m text).calls h hm ks
  intro as s
  refine ⟨hs.text, hs.position, fun hx => ?_, fun hx => ?_, fun hended => ?_, fun hended => ?_⟩
  · rw [tryNext_of_exhausted hx]
  · have hfresh := recounts_scan m (String.ofList (text.toList.drop s.position))
    refine tryNext_congr h hm hs.toReady hfresh.toReady hx rfl ?_
    rw [hs.text_eq_drop hx]
    simp [Matcher.scan, s]
  · have hstalled : s.stalled = false := by
      cases hstalled : s.stalled with
      | false => rfl
      | true => exact absurd (hs.stalled.1 hstalled) hended
    rw [next_of_not_stalled hstalled]
  · rw [next_of_stalled (hs.stalled.2 hended)]

/-- Behind the first `a` of `aac` the scanner has read on in vain, and goes on as if it had not. -/
theorem calls_correct_read_in_vain :
    let c : Compiler Nat := ((Compiler.new .regex).addAll [("a", 1), ("aab", 2)]).1
    ∃ m, Compiler.Collects .regex [.pattern "a" 1, .pattern "aab" 2] c ∧ c.compile = .ok m ∧
      let as := ((m.scan "aac").calls [.tryNext, .next]).1
      let s := ((m.scan "aac").calls [.tryNext, .next]).2
      captured as ++ (characters s.ahead ++ s.input.rest) = ['a', 'a', 'c'] ∧
      s.position = (captured as).length + (if s.exhausted then 1 else 0) ∧
      (¬ Ended as → s.next.1 = s.tryNext.1) := by
  obtain ⟨m, hrules, hm⟩ := Compiler.compile_lookahead
  have h := calls_correct hrules hm "aac" [.tryNext, .next]
  exact ⟨m, hrules, hm, h.1, h.2.1, h.2.2.2.2.1⟩

end Scanner

end MaximalMunch
