import MaximalMunch.Proofs.BoundedWalk

/-!
# The text is read lazily

A scanner reads its text from the front, each code point once, and only as far as its automaton has to look.
What a call has looked at and not consumed is at hand for the next one.

- `CodePoint.atPlace`, `CodePoint.firstOf` : a text with end marks behind it, by its places
- `DFA.Follows`               : how far an automaton follows a text
- `Input.Behind`              : an input and the code points that were read from it
- `Walk.Ends.length_fresh`    : a walk reads what it looks at and does not have at hand
- `Scanner.LooksAt`           : what a call has to look at
- `Scanner.behind_calls`      : after any calls the input stands behind what they have read
- `Scanner.polls_calls`       : how often the text is asked for a character
-/

namespace MaximalMunch

open CodePoint

/-! ## Places of a text -/

namespace CodePoint

/-- The code point at a place of a text with end marks behind it. -/
def atPlace (cs : List Char) (i : Nat) : Int := (cs[i]?).elim endMark ofChar

/-- The first `k` code points of a text with end marks behind it. -/
def firstOf (cs : List Char) (k : Nat) : List Int := (List.range k).map (atPlace cs)

@[simp] theorem length_firstOf (cs : List Char) (k : Nat) : (firstOf cs k).length = k := by
  simp [firstOf]

theorem firstOf_succ (cs : List Char) (k : Nat) : firstOf cs (k + 1) = firstOf cs k ++ [atPlace cs k] := by
  simp [firstOf, List.range_succ]

theorem firstOf_prefix (cs : List Char) {j k : Nat} (h : j ≤ k) : firstOf cs j <+: firstOf cs k := by
  obtain ⟨m, rfl⟩ := Nat.exists_eq_add_of_le h
  rw [firstOf, firstOf, List.range_add, List.map_append]
  exact List.prefix_append _ _

/-- With enough end marks behind it a text begins with its first code points. -/
theorem take_ofText_eq_firstOf {cs : List Char} {marks k : Nat} (hk : k ≤ cs.length + marks) :
    (ofText cs marks).take k = firstOf cs k := by
  refine List.ext_getElem (by simp [ofText]; omega) fun i hi hi' => ?_
  rw [length_firstOf] at hi'
  by_cases hlt : i < cs.length
  · simp [ofText, firstOf, atPlace, hlt]
  · simp only [List.getElem_take, ofText, firstOf, List.getElem_map, List.getElem_range, atPlace]
    rw [List.getElem_append_right (by simpa using hlt)]
    simp [hlt]

end CodePoint

namespace DFA

variable {V : Type} {a : DFA V} {cs : List Char} {d d' : Nat}

/-- The automaton follows `d` edges from its start over a text with end marks behind it, and the next edge is
missing. -/
def Follows (a : DFA V) (cs : List Char) (d : Nat) : Prop :=
  (a.run? a.start (firstOf cs d)).isSome ∧ a.run? a.start (firstOf cs (d + 1)) = none

/-- Behind a missing edge nothing is followed. -/
theorem Follows.le (h : a.Follows cs d) (h' : a.Follows cs d') : d' ≤ d := by
  by_contra hlt
  obtain ⟨more, hmore⟩ := firstOf_prefix cs (show d + 1 ≤ d' by omega)
  have hrun := h'.1
  rw [← hmore, run?_append, h.2] at hrun
  exact absurd hrun (by simp)

theorem Follows.unique (h : a.Follows cs d) (h' : a.Follows cs d') : d = d' :=
  Nat.le_antisymm (h'.le h) (h.le h')

end DFA

/-! ## Reading from the front -/

namespace Input

/-- The code points `ps` were read from the text `cs`, and the input is what is left of it. -/
structure Behind (cs : List Char) (ps : List Int) (i : Input) : Prop where
  read_eq : ps = firstOf cs ps.length
  rest : i.rest = cs.drop ps.length
  polls : i.polls = min ps.length (cs.length + 1)
  ended : i.ended = true ↔ cs.length < ps.length

theorem behind_ofString (text : String) : Behind text.toList [] (ofString text) where
  read_eq := rfl
  rest := rfl
  polls := by simp [ofString]
  ended := by simp [ofString]

theorem read_fst (i : Input) : i.read.1 = i.rest.head?.elim endMark ofChar := by
  unfold read
  split
  · rename_i hrest
    simp [hrest]
  · rename_i hrest
    split <;> simp [hrest]

theorem ended_read_iff (i : Input) : i.read.2.ended = true ↔ i.ended = true ∨ i.rest = [] := by
  unfold read
  split
  · rename_i hrest
    simp [hrest]
  · rename_i hrest
    split
    · rename_i hended
      simp [hended]
    · simp [hrest]

theorem polls_read (i : Input) :
    i.read.2.polls = if i.ended = true ∧ i.rest = [] then i.polls else i.polls + 1 := by
  unfold read
  split
  · rename_i hrest
    simp [hrest]
  · rename_i hrest
    split
    · rename_i hended
      simp [hended, hrest]
    · rename_i hended
      simp [hended]

/-- Reading takes the next place of the text, and asks the text for it unless the text has ended before. -/
theorem Behind.read {cs : List Char} {ps : List Int} {i : Input} (h : Behind cs ps i) :
    Behind cs (ps ++ [i.read.1]) i.read.2 := by
  have hnil : i.rest = [] ↔ cs.length ≤ ps.length := by rw [h.rest, List.drop_eq_nil_iff]
  have hplace : i.read.1 = atPlace cs ps.length := by
    rw [read_fst, h.rest, List.head?_drop, atPlace]
  have hpolls := h.polls
  constructor
  · rw [List.length_append, List.length_singleton, firstOf_succ, ← h.read_eq, hplace]
  · rw [rest_read, h.rest, List.tail_drop, List.length_append, List.length_singleton]
  · rw [polls_read, List.length_append, List.length_singleton]
    simp only [h.ended, hnil]
    split <;> omega
  · rw [ended_read_iff, h.ended, hnil, List.length_append, List.length_singleton]
    omega

end Input

/-! ## What a walk reads -/

namespace Walk

variable {V : Type} {d : DFA V}

/-- A walk reads from the front of its input. -/
theorem behind_advance {cs : List Char} {before : List Int} (w : Walk V) (ahead : List Int) (input : Input)
    (fresh : List Int) (marks : Nat) (h : Input.Behind cs (before ++ fresh.reverse) input) :
    Input.Behind cs (before ++ (advance d w ahead input fresh marks).fresh.reverse)
      (advance d w ahead input fresh marks).input := by
  fun_induction advance d w ahead input fresh marks with
  | case1 => exact h
  | case2 w input fresh marks p ahead w' hstep ih => exact ih h
  | case3 => exact h
  | case4 w input fresh marks hmarks r hstep =>
      simpa using h.read
  | case5 w input fresh marks hmarks r w' hstep ih =>
      exact ih (by simpa using h.read)

/-- A walk of `k` steps looks at one code point more. It reads those of them that it does not have at hand. -/
theorem Ends.length_fresh {w : Walk V} {ahead : List Int} {input : Input} {fresh : List Int} {o : Outcome V}
    (h : Ends d w ahead input fresh o) :
    ∃ k, o.walk.steps = w.steps + k ∧
      ahead.length + o.fresh.length = fresh.length + max ahead.length (k + 1) := by
  induction h with
  | ahead_stop =>
      refine ⟨0, rfl, ?_⟩
      simp only [List.length_cons]
      omega
  | ahead_step hstep _ ih =>
      obtain ⟨k, hsteps, hlen⟩ := ih
      have := steps_step? hstep
      refine ⟨k + 1, by omega, ?_⟩
      simp only [List.length_cons]
      omega
  | stop =>
      refine ⟨0, rfl, ?_⟩
      simp only [List.length_cons, List.length_nil]
      omega
  | step hstep _ ih =>
      obtain ⟨k, hsteps, hlen⟩ := ih
      have := steps_step? hstep
      refine ⟨k + 1, by omega, ?_⟩
      simp only [List.length_cons, List.length_nil] at hlen ⊢
      omega

/-- A walk that takes fewer steps than there are code points to go along ends where an edge is missing. -/
theorem Along.exists_missing {u : List Int} {w : Walk V} (h : Along d u w) {ps : List Int}
    (hshort : (along d w ps).steps < w.steps + ps.length) :
    ∃ v p, v ++ [p] <+: ps ∧ (along d w ps).steps = w.steps + v.length ∧
      (d.run? d.start (u ++ v)).isSome ∧ d.run? d.start (u ++ v ++ [p]) = none := by
  induction ps generalizing u w with
  | nil =>
      exact absurd hshort (by simp [along])
  | cons p ps ih =>
      rw [along] at hshort ⊢
      split at hshort
      · rename_i hstep
        refine ⟨[], p, by simp, rfl, by simp [h.run], ?_⟩
        rw [List.append_nil, DFA.run?_snoc, h.run]
        unfold step? at hstep
        split at hstep
        · assumption
        · exact absurd hstep (by simp)
      · rename_i w' hstep
        have hsteps := steps_step? hstep
        rw [List.length_cons] at hshort
        obtain ⟨v, q, hv, hlen, hrun, hmissing⟩ := ih (h.step hstep) (by omega)
        have happend : u ++ [p] ++ v = u ++ p :: v := by simp
        rw [happend] at hrun hmissing
        refine ⟨p :: v, q, ?_, ?_, hrun, hmissing⟩
        · rw [List.cons_append]
          exact List.cons_prefix_cons.2 ⟨rfl, hv⟩
        · rw [hlen, List.length_cons]
          omega

end Walk

namespace Scanner

section Walks

variable {V : Type} [DecidableEq V] {n : NFA V} {parts : List (Part V)} {a : DFA V}
  {cs : List (List Nat)} {index : Std.HashMap (List Nat) Nat} {s : Scanner V}

/-- The walk of a scanner goes as far as its automaton follows what is left of the text. -/
theorem follows_walk (h : Compiler.Built n parts a cs index) (hs : Ready a s) :
    a.Follows s.text s.walk.walk.steps := by
  have hshort := (steps_walk_le h hs).2
  obtain ⟨marks, -, hlist⟩ := hs.buffered.append_ofText s.automaton.size
  have htotal := congrArg List.length hlist
  obtain rfl := hs.automaton
  have hwalk : s.walk.walk = Walk.along s.automaton { state := s.automaton.start } (ofText s.text marks) := by
    rw [walk, Walk.advance_walk, hlist, text]
  have hroom : (ofText s.text marks).length = s.ahead.length + s.input.rest.length + s.automaton.size := by
    rw [text, ← htotal]
    simp [ofText, Nat.add_assoc]
  rw [hwalk] at hshort ⊢
  have hshort : (Walk.along s.automaton { state := s.automaton.start } (ofText s.text marks)).steps <
      0 + (ofText s.text marks).length := by
    rw [hroom]
    omega
  obtain ⟨v, p, hv, hlen, hrun, hmissing⟩ := (Walk.Along.start s.automaton).exists_missing hshort
  -- What is followed and the code point behind it are the first ones of the text.
  have hle := hv.length_le
  simp only [ofText, List.length_append, List.length_map, List.length_replicate, List.length_singleton] at hle
  have hnext : v ++ [p] = firstOf s.text (v.length + 1) := by
    rw [List.prefix_iff_eq_take.1 hv, List.length_append, List.length_singleton]
    exact take_ofText_eq_firstOf (by omega)
  have hfirst : v = firstOf s.text v.length := by
    rw [firstOf_succ] at hnext
    exact (List.append_inj' hnext rfl).1
  rw [List.nil_append] at hrun hmissing
  rw [hlen, Nat.zero_add]
  refine ⟨?_, ?_⟩
  · rw [← hfirst]
    exact hrun
  · rw [← hnext]
    exact hmissing

/-- A walk reads the code points that it looks at, but for those read ahead. -/
theorem length_fresh_walk (h : Compiler.Built n parts a cs index) (hs : Ready a s) :
    s.ahead.length + s.walk.fresh.length = max s.ahead.length (s.walk.walk.steps + 1) := by
  obtain ⟨k, hsteps, hlen⟩ := ((ends_walk_iff h hs).2 rfl).length_fresh
  have hk : s.walk.walk.steps = k := by simpa using hsteps
  rw [hk]
  simpa using hlen

end Walks

/-! ## What calls read -/

section Calls

variable {V : Type} {s : Scanner V}

theorem call_of_idle {k : Call} (h : s.idle k = true) : s.call k = (none, s) := by
  cases k with
  | tryNext =>
      exact tryNext_of_exhausted h
  | next =>
      cases hstalled : s.stalled with
      | true =>
          exact next_of_stalled hstalled
      | false =>
          rw [idle, hstalled, Bool.false_or] at h
          rw [call, next_of_not_stalled hstalled, tryNext_of_exhausted h]
          simp

/-- A walk moves code points from the input to those read ahead, and a match moves some of them on to the
consumed ones. -/
theorem tryNext_reads (hx : s.exhausted = false) :
    s.tryNext.2.input = s.walk.input ∧ s.tryNext.2.readCount = s.readCount + s.walk.fresh.length := by
  unfold tryNext
  rw [if_neg (by simp [hx])]
  dsimp only
  split
  · exact ⟨rfl, rfl⟩
  · split <;> exact ⟨rfl, rfl⟩

/-- A call that is not idle reads as `tryNext` does. -/
theorem call_reads {k : Call} (h : s.idle k = false) :
    (s.call k).2.input = s.walk.input ∧ (s.call k).2.readCount = s.readCount + s.walk.fresh.length := by
  cases k with
  | tryNext =>
      exact tryNext_reads h
  | next =>
      obtain ⟨hstalled, hx⟩ : s.stalled = false ∧ s.exhausted = false := by simpa [idle] using h
      rw [call, next_of_not_stalled hstalled]
      exact tryNext_reads hx

theorem behind_call {cs : List Char} {ps : List Int} (h : Input.Behind cs ps s.input) (k : Call) :
    Input.Behind cs (ps ++ s.readBy k) (s.call k).2.input ∧
      (s.call k).2.readCount = s.readCount + (s.readBy k).length := by
  cases hidle : s.idle k with
  | true =>
      rw [call_of_idle hidle]
      simpa [readBy, hidle] using h
  | false =>
      obtain ⟨hinput, hcount⟩ := call_reads hidle
      rw [hinput, hcount, readBy, hidle, if_neg (by simp), List.length_reverse]
      exact ⟨Walk.behind_advance _ _ _ _ _ (by simpa using h), rfl⟩

theorem behind_calls {cs : List Char} {ps : List Int} (h : Input.Behind cs ps s.input) (ks : List Call) :
    Input.Behind cs (ps ++ s.reads ks) (s.calls ks).2.input ∧
      (s.calls ks).2.readCount = s.readCount + (s.reads ks).length := by
  induction ks generalizing s ps with
  | nil =>
      simpa [reads, calls] using h
  | cons k ks ih =>
      obtain ⟨hcall, hcount⟩ := behind_call h k
      obtain ⟨hrest, htotal⟩ := ih hcall
      rw [reads, calls, List.length_append, ← List.append_assoc]
      exact ⟨hrest, by rw [htotal, hcount, Nat.add_assoc]⟩

theorem calls_append (s : Scanner V) (ks ks' : List Call) :
    (s.calls (ks ++ ks')).2 = ((s.calls ks).2.calls ks').2 := by
  induction ks generalizing s with
  | nil =>
      rfl
  | cons k ks ih =>
      exact ih (s.call k).2

theorem reached_calls {m : Matcher V} {text : String} (h : Reached m text s) (ks : List Call) :
    Reached m text (s.calls ks).2 := by
  induction ks generalizing s with
  | nil =>
      exact h
  | cons k ks ih =>
      cases k with
      | tryNext => exact ih h.tryNext
      | next => exact ih h.next

end Calls

/-! ## How often the text is asked -/

section Polls

variable {V : Type}

/-- The call `k` looks at the place `i` of the text: it lies behind the position, and the automaton follows the
text from the position to this place. -/
def LooksAt (m : Matcher V) (text : String) (s : Scanner V) (k : Call) (i : Nat) : Prop :=
  s.idle k = false ∧ ∃ d, m.automaton.Follows (text.toList.drop s.position) d ∧
    s.position ≤ i ∧ i ≤ s.position + d

variable [DecidableEq V] {n : NFA V} {parts : List (Part V)} {cs : List (List Nat)}
  {index : Std.HashMap (List Nat) Nat} {m : Matcher V} {s : Scanner V} {k : Call}

/-- A call reads up to the code point that it looks at last, or it has this code point at hand. -/
theorem readCount_call (h : Compiler.Built n parts m.automaton cs index) (hs : Ready m.automaton s)
    (hidle : s.idle k = false) :
    (s.call k).2.readCount = max s.readCount (s.position + s.walk.walk.steps + 1) := by
  have hfresh := length_fresh_walk h hs
  have hcount := s.position_add_length
  rw [(call_reads hidle).2]
  omega

variable {text : String}

theorem polls_call (h : Compiler.Built n parts m.automaton cs index) (hs : Reached m text s)
    {ps : List Int} (hps : Input.Behind text.toList ps s.input) (hcount : s.readCount = ps.length)
    (hidle : s.idle k = false) :
    m.automaton.Follows (text.toList.drop s.position) s.walk.walk.steps ∧
      (s.call k).2.input.polls =
        max s.input.polls (min (text.length + 1) (s.position + s.walk.walk.steps + 1)) := by
  have hready : Ready m.automaton s := ⟨hs.stands.automaton, hs.stands.buffered⟩
  obtain ⟨hcall, htotal⟩ := behind_call hps k
  have hread := readCount_call h hready hidle
  refine ⟨hs.text_eq_drop ▸ follows_walk h hready, ?_⟩
  rw [hcall.polls, hps.polls, List.length_append, String.length_toList]
  omega

/-- What was polled, some call had to look at. -/
theorem exists_looksAt (h : Compiler.Built n parts m.automaton cs index) (calls : List Call) {i : Nat}
    (hi : i < ((m.scan text).calls calls).2.input.polls) :
    ∃ before k, before ++ [k] <+: calls ∧ LooksAt m text ((m.scan text).calls before).2 k i := by
  induction calls using List.reverseRecOn with
  | nil =>
      exact absurd hi (Nat.not_lt_zero i)
  | append_singleton calls k ih =>
      have hbefore : i < ((m.scan text).calls calls).2.input.polls →
          ∃ before k', before ++ [k'] <+: calls ++ [k] ∧
            LooksAt m text ((m.scan text).calls before).2 k' i := by
        intro hlt
        obtain ⟨before, k', hprefix, hlooks⟩ := ih hlt
        exact ⟨before, k', hprefix.trans (List.prefix_append _ _), hlooks⟩
      rw [calls_append] at hi
      have hreached := reached_calls (.scan : Reached m text (m.scan text)) calls
      obtain ⟨hps, hcount⟩ := behind_calls (s := m.scan text) (Input.behind_ofString text) calls
      cases hidle : ((m.scan text).calls calls).2.idle k with
      | true =>
          refine hbefore ?_
          rwa [show (((m.scan text).calls calls).2.calls [k]).2 = (((m.scan text).calls calls).2.call k).2
            from rfl, call_of_idle hidle] at hi
      | false =>
          have hlen : ((m.scan text).calls calls).2.readCount = ((m.scan text).reads calls).length := by
            rw [hcount]
            exact Nat.zero_add _
          obtain ⟨hfollows, hpolls⟩ := polls_call h hreached hps hlen hidle
          by_cases hlt : i < ((m.scan text).calls calls).2.input.polls
          · exact hbefore hlt
          · -- What was read before lies in front of the place, so the position does too.
            have hcall : i < (((m.scan text).calls calls).2.call k).2.input.polls := hi
            have hold := hps.polls
            rw [List.nil_append, ← hlen, String.length_toList] at hold
            have hposition : ((m.scan text).calls calls).2.position ≤
                ((m.scan text).calls calls).2.readCount := Nat.sub_le _ _
            exact ⟨calls, k, List.prefix_rfl, hidle, _, hfollows, by omega, by omega⟩

/-- After any calls, a scanner of `n` characters that has read `k` code points has read the first `k` ones of its
text, and has asked the text `min k (n + 1)` times. An idle call changes nothing. Another one that looks at `d + 1`
code points from its position `p` on brings the number of times to `min (n + 1) (p + d + 1)`, unless it was as high
before. No place of the text was asked for that no call had to look at. -/
theorem polls_calls {d : Dialect} {ks : List (Compiler.Call V)} (hm : ((Compiler.new d).calls ks).compile = .ok m)
    (text : String) (calls : List Call) :
    let s := ((m.scan text).calls calls).2
    let n := text.length
    (m.scan text).reads calls = firstOf text.toList s.readCount ∧
    s.input.polls = min s.readCount (n + 1) ∧
    s.input.rest = text.toList.drop s.input.polls ∧
    (∀ k, s.idle k = true → s.call k = (none, s)) ∧
    (∀ k, s.idle k = false → ∃ d,
      (∀ d', m.automaton.Follows (text.toList.drop s.position) d' ↔ d' = d) ∧
      (s.call k).2.input.polls = max s.input.polls (min (n + 1) (s.position + d + 1))) ∧
    ∀ i < s.input.polls, ∃ before k, before ++ [k] <+: calls ∧
      LooksAt m text ((m.scan text).calls before).2 k i := by
  intro s n
  obtain ⟨parts, cs, index, -, hbuilt⟩ := (Compiler.collects_calls d ks).built hm
  obtain ⟨hps, hcount⟩ := behind_calls (s := m.scan text) (Input.behind_ofString text) calls
  rw [List.nil_append] at hps
  have hlen : s.readCount = ((m.scan text).reads calls).length := hcount.trans (Nat.zero_add _)
  have hpolls : s.input.polls = min s.readCount (n + 1) := by
    rw [hps.polls, hlen, String.length_toList]
  refine ⟨hlen ▸ hps.read_eq, hpolls, ?_, fun k hidle => call_of_idle hidle, fun k hidle => ?_,
    fun i hi => exists_looksAt hbuilt calls hi⟩
  · rw [hps.rest, hpolls, hlen]
    rcases Nat.le_total ((m.scan text).reads calls).length (n + 1) with hle | hle
    · rw [Nat.min_eq_left hle]
    · have hend : text.toList.length ≤ n + 1 := by
        rw [String.length_toList]
        exact Nat.le_succ _
      rw [Nat.min_eq_right hle, List.drop_eq_nil_of_le hend, List.drop_eq_nil_of_le (hend.trans hle)]
  · obtain ⟨hfollows, hcall⟩ := polls_call hbuilt (reached_calls .scan calls) hps hlen hidle
    exact ⟨_, fun d' => ⟨fun h => h.unique hfollows, fun h => h ▸ hfollows⟩, hcall⟩

/-- The loop over all characters but one follows `bb` to its end and has to look at the end mark. So the text is
asked three times in the first call, and it is not asked again in the second one. -/
theorem polls_calls_negated_class :
    ∃ m, ((Compiler.new .regex : Compiler Nat).calls [.add "[^a]*" 1, .addEndOfText 2]).compile = .ok m ∧
      m.automaton.Follows ['b', 'b'] 2 ∧
      ((m.scan "bb").calls [.next]).2.input.polls = 3 ∧
      ((m.scan "bb").calls [.next]).2.input.rest = [] ∧
      ((m.scan "bb").calls [.next, .next]).2.input.polls = 3 := by
  obtain ⟨m, hm⟩ := Compiler.exists_compile_negated_class
  obtain ⟨parts, cs, index, -, hbuilt⟩ := (Compiler.collects_calls .regex _).built hm
  have hfollows : m.automaton.Follows ['b', 'b'] 2 := by
    constructor
    · -- The two characters are two rounds of the loop.
      have hcomplement : Range.complement [.ofChar 'a'] = [⟨0, 96⟩, ⟨98, 0xFFFF⟩] := by
        with_unfolding_all rfl
      have hone : (Tree.characters (Range.complement [.ofChar 'a'])).Spells [98] :=
        Tree.spells_characters_iff.2 ⟨⟨98, 0xFFFF⟩, by simp [hcomplement], 98, by decide, rfl⟩
      have hmatch : Dialect.regex.Matches "[^a]*" (['b', 'b'].map ofChar) :=
        ⟨_, Compiler.parse_negated_class, Tree.spells_repetition_iff.2
          ⟨2, by simp, by simp, [[98], [98]], rfl, by simpa using hone, rfl⟩⟩
      have hmem : ("[^a]*", 1) ∈ Rule.patterns [.pattern "[^a]*" 1, .endOfText 2] := by simp [Rule.patterns]
      have hout := Compiler.collects_negated_class.output?_of_matches hm hmem hmatch
      obtain ⟨q, hq, -⟩ := Option.bind_eq_some_iff.1 hout
      exact Option.isSome_iff_exists.2 ⟨q, hq⟩
    · -- No edge over an end mark leaves another state than the start.
      cases hmissing : m.automaton.run? m.automaton.start (firstOf ['b', 'b'] 3) with
      | none => rfl
      | some q => exact absurd (hbuilt.word_of_run? hmissing) (by decide)
  -- The first call, and what holds behind it.
  obtain ⟨-, -, -, -, hfirst, -⟩ := polls_calls hm "bb" []
  obtain ⟨d, hd, hpolls⟩ := hfirst .next rfl
  obtain rfl : 2 = d := (hd 2).1 hfollows
  have hthree : ((m.scan "bb").calls [.next]).2.input.polls = 3 := hpolls
  obtain ⟨-, -, hrest, hidle, hnext, -⟩ := polls_calls hm "bb" [.next]
  rw [hthree] at hrest
  refine ⟨m, hm, hfollows, hthree, hrest, ?_⟩
  change (((m.scan "bb").calls [.next]).2.call .next).2.input.polls = 3
  cases h : ((m.scan "bb").calls [.next]).2.idle .next with
  | true =>
      rw [hidle .next h]
      exact hthree
  | false =>
      obtain ⟨d, -, hagain⟩ := hnext .next h
      rw [hagain, hthree]
      exact Nat.max_eq_left (Nat.min_le_left _ _)

end Polls

end Scanner

end MaximalMunch
