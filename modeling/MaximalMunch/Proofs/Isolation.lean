import MaximalMunch.Proofs.Registration
import MaximalMunch.Proofs.WellFormedness

/-!
# Rules have states of their own

Behind its start the automaton of a compiler is cut into parts, one for each rule, in the order in which the
rules were added. Nothing leads from one part into another, so no rule can take in a piece of another one.

- `Part`, `Part.Adjoining` : the states of a rule, and parts that lie one behind the other
- `NFA.targets`            : the states that a state leads to
- `NFA.Isolated`           : the invariant of a compiler
- `Isolated.grow`          : one more part keeps the parts that were there as they are
- `Isolated.entered`       : a part is entered from the start only
- `Compiler.calls_isolated` : the invariant holds after any calls, and a failure adds nothing
-/

namespace MaximalMunch

open CodePoint
open Compiler (start)

/-- The rule is a pattern. -/
def Rule.isPattern {V : Type} : Rule V → Bool
  | pattern _ _ => true
  | endOfText _ => false

theorem Rule.isPattern_eq_false_iff {V : Type} {r : Rule V} :
    r.isPattern = false ↔ ∃ v, r = .endOfText v := by
  cases r <;> simp [isPattern]

/-- A rule and the numbers of its states, from `first` to `last`. -/
structure Part (V : Type) where
  rule : Rule V
  first : Nat
  last : Nat

namespace Part

variable {V : Type} {lo hi : Nat} {ps : List (Part V)} {p p' : Part V}

/-- The state belongs to the part. -/
def Has (p : Part V) (q : Nat) : Prop := p.first ≤ q ∧ q ≤ p.last

/-- The first states of the patterns. -/
def entries (ps : List (Part V)) : List Nat :=
  (ps.filter fun p => p.rule.isPattern).map first

/-- The first states of the values for the end of the text. -/
def ends (ps : List (Part V)) : List Nat :=
  (ps.filter fun p => !p.rule.isPattern).map first

/-- The parts have the states from `lo` to the one before `hi`, each part those behind the one before it. -/
def Adjoining : Nat → List (Part V) → Nat → Prop
  | lo, [], hi => lo = hi
  | lo, p :: ps, hi => p.first = lo ∧ p.first ≤ p.last ∧ Adjoining (p.last + 1) ps hi

namespace Adjoining

theorem le (h : Adjoining lo ps hi) : lo ≤ hi := by
  induction ps generalizing lo with
  | nil =>
      exact Nat.le_of_eq h
  | cons p ps ih =>
      have := ih h.2.2
      have := h.2.1
      have := h.1
      omega

theorem concat (h : Adjoining lo ps p.first) (hle : p.first ≤ p.last) :
    Adjoining lo (ps ++ [p]) (p.last + 1) := by
  induction ps generalizing lo with
  | nil =>
      exact ⟨h.symm, hle, rfl⟩
  | cons q ps ih =>
      exact ⟨h.1, h.2.1, ih h.2.2⟩

theorem bounds (h : Adjoining lo ps hi) (hp : p ∈ ps) : lo ≤ p.first ∧ p.first ≤ p.last ∧ p.last < hi := by
  induction ps generalizing lo with
  | nil =>
      exact absurd hp (by simp)
  | cons q ps ih =>
      have hle := h.2.2.le
      have := h.2.1
      have := h.1
      rcases List.mem_cons.1 hp with rfl | hp
      · omega
      · have := ih h.2.2 hp
        omega

/-- Each state belongs to a part. -/
theorem exists_has (h : Adjoining lo ps hi) {q : Nat} (hlo : lo ≤ q) (hhi : q < hi) :
    ∃ p ∈ ps, p.Has q := by
  induction ps generalizing lo with
  | nil =>
      have heq : lo = hi := h
      omega
  | cons p ps ih =>
      have hfirst := h.1
      by_cases hq : q ≤ p.last
      · exact ⟨p, by simp, by omega, hq⟩
      · rcases ih h.2.2 (by omega) with ⟨p', hp', hhas⟩
        exact ⟨p', by simp [hp'], hhas⟩

/-- No state belongs to two parts. -/
theorem eq_of_has (h : Adjoining lo ps hi) (hp : p ∈ ps) (hp' : p' ∈ ps) {q : Nat} (hq : p.Has q)
    (hq' : p'.Has q) : p = p' := by
  induction ps generalizing lo with
  | nil =>
      exact absurd hp (by simp)
  | cons x ps ih =>
      -- The parts behind `x` have no state of `x`.
      have hbehind : ∀ y ∈ ps, x.Has q → y.Has q → False := by
        intro y hy hx hyq
        have hbounds := h.2.2.bounds hy
        have := hx.2
        have := hyq.1
        omega
      rcases List.mem_cons.1 hp with heq | hmem
      · rcases List.mem_cons.1 hp' with heq' | hmem'
        · rw [heq, heq']
        · subst heq
          exact absurd hq' fun hq' => hbehind p' hmem' hq hq'
      · rcases List.mem_cons.1 hp' with heq' | hmem'
        · subst heq'
          exact absurd hq fun hq => hbehind p hmem hq' hq
        · exact ih h.2.2 hmem hmem'

end Adjoining

end Part

namespace NFA

variable {V : Type} {n n' : NFA V}

/-- The states that the edges and the silent edges of a state lead to. -/
def targets (n : NFA V) (q : Nat) : List Nat := (n.edges q).map Edge.target ++ n.silent q

theorem Step.mem_targets {q t : Nat} {l : Option Int} (h : n.Step q l t) : t ∈ n.targets q := by
  cases h with
  | silent ht =>
      exact List.mem_append_right _ ht
  | edge he _ =>
      exact List.mem_append_left _ (List.mem_map_of_mem he)

theorem mem_targets_iff {q t : Nat} (hproper : ∀ e ∈ n.edges q, e.Proper) :
    t ∈ n.targets q ↔ ∃ l, n.Step q l t := by
  constructor
  · intro ht
    rcases List.mem_append.1 ht with ht | ht
    · rcases List.mem_map.1 ht with ⟨e, he, rfl⟩
      exact ⟨some e.lo, .edge he ⟨Int.le_refl _, hproper e he⟩⟩
    · exact ⟨none, .silent ht⟩
  · rintro ⟨l, hstep⟩
    exact hstep.mem_targets

/-- Growth behind a state that leads nowhere leads to new states only. -/
theorem Grows.size_le_of_targets {a q t : Nat} (hg : Grows n n' a) (hproper : n'.Ranges Range.Proper)
    (ha : n.targets a = []) (hq : q = a ∨ n.size ≤ q) (ht : t ∈ n'.targets q) : n.size ≤ t := by
  rcases (mem_targets_iff (hproper q)).1 ht with ⟨l, hstep⟩
  rcases hg.toExtends.step_iff.1 hstep with hold | hadd
  · have hlt := hold.lt_size
    rcases hq with rfl | hq
    · have hmem := hold.mem_targets
      rw [ha] at hmem
      exact absurd hmem (by simp)
    · omega
  · exact (hg.enters q l t hadd).1

/-- Behind its start the automaton is cut into parts that do not lead into each other. -/
structure Isolated (n : NFA V) (parts : List (Part V)) : Prop where
  /-- Each edge has a code point, and all targets are states. -/
  wellFormed : n.WellFormed
  /-- No state leads silently to itself, or twice to the same state. -/
  simple : n.Simple
  /-- The parts are contiguous, and they are all states behind the start. -/
  adjoining : Part.Adjoining (start + 1) parts n.size
  /-- Nothing leads back to the start. -/
  start_source : ∀ q, start ∉ n.targets q
  /-- The start leads silently to the entry of each pattern, and nowhere else. -/
  silent_start : n.silent start = Part.entries parts
  /-- The start leads over the end mark to each value for the end of the text, and over nothing else. -/
  edges_start : n.edges start = (Part.ends parts).map (Edge.ofRange (.point endMark))
  /-- A state of a part leads to later states of its part, or further inside it, but not to its entry. -/
  inside : ∀ p ∈ parts, ∀ q, p.Has q → ∀ t ∈ n.targets q, p.first < t ∧ t ≤ p.last
  /-- Only the last state of a part has a value, which is that of its rule. -/
  value?_iff : ∀ q v, n.value? q = some v ↔ ∃ p ∈ parts, p.last = q ∧ p.rule.value = v
  /-- Nothing leads out of the last state of a part. -/
  sink : ∀ p ∈ parts, n.targets p.last = []
  /-- A value for the end of the text has one state. -/
  single : ∀ p ∈ parts, p.rule.isPattern = false → p.first = p.last

namespace Isolated

variable {parts : List (Part V)} {p : Part V}

theorem mem_targets_iff (h : n.Isolated parts) {q t : Nat} :
    t ∈ n.targets q ↔ ∃ l, n.Step q l t :=
  NFA.mem_targets_iff (h.wellFormed.edge_proper q)

/-- No step leads back to the start. -/
theorem not_step_start (h : n.Isolated parts) (x : Nat) (l : Option Int) : ¬ n.Step x l start :=
  fun hstep => h.start_source x hstep.mem_targets

theorem start_lt (h : n.Isolated parts) : start < n.size := h.adjoining.le

theorem anchored (h : n.Isolated parts) : n.Anchored start := h.wellFormed.anchored h.start_lt

/-- One more part behind the start. -/
theorem grow (h : n.Isolated parts) (hg : Grows n n' start) (hproper : n'.Ranges Range.Proper)
    (hsimple : n'.Simple) (hfirst : p.first = n.size) (hle : p.first ≤ p.last)
    (hsize : n'.size = p.last + 1) (hsilent : n'.silent start = n.silent start ++ Part.entries [p])
    (hedges : n'.edges start = n.edges start ++ (Part.ends [p]).map (Edge.ofRange (.point endMark)))
    (hinside : ∀ q, p.Has q → ∀ t ∈ n'.targets q, p.first < t) (hsink : n'.targets p.last = [])
    (hvalue : ∀ q, n'.value? q = if q = p.last then some p.rule.value else n.value? q)
    (hsingle : p.rule.isPattern = false → p.first = p.last) : n'.Isolated (parts ++ [p]) := by
  have hmem : ∀ p', p' ∈ parts ++ [p] ↔ p' ∈ parts ∨ p' = p := by simp
  have hwell := h.wellFormed.grow hg hproper
  have hstart := h.start_lt
  have htarget : ∀ {q t : Nat}, t ∈ n'.targets q → ∃ l, n'.Step q l t :=
    fun ht => (NFA.mem_targets_iff (hproper _)).1 ht
  -- The states of the other parts have the edges that they had before.
  have hold : ∀ q, q < n.size → q ≠ start → n'.targets q = n.targets q := by
    intro q hq hne
    rw [targets, targets, hg.silent_eq hq hne, hg.edges_eq (hproper q) hq hne]
  have hbounds : ∀ p' ∈ parts, start < p'.first ∧ p'.first ≤ p'.last ∧ p'.last < n.size :=
    fun p' hp' => h.adjoining.bounds hp'
  refine
    { wellFormed := hwell
      simple := hsimple
      adjoining := by
        rw [hsize]
        exact Part.Adjoining.concat (hfirst ▸ h.adjoining) hle
      start_source := fun q ht => ?_
      silent_start := by rw [hsilent, h.silent_start]; simp [Part.entries]
      edges_start := by rw [hedges, h.edges_start]; simp [Part.ends]
      inside := fun p' hp' q hq t ht => ?_
      value?_iff := fun q v => ?_
      sink := fun p' hp' => ?_
      single := fun p' hp' => ?_ }
  · rcases htarget ht with ⟨l, hstep⟩
    rcases hg.toExtends.step_iff.1 hstep with hstep | hadd
    · exact h.start_source q (h.mem_targets_iff.2 ⟨l, hstep⟩)
    · have := (hg.enters q l start hadd).1
      omega
  · rcases (hmem p').1 hp' with hp' | rfl
    · have := hbounds p' hp'
      have := hq.1
      have := hq.2
      rw [hold q (by omega) (by omega)] at ht
      exact h.inside p' hp' q hq t ht
    · rcases htarget ht with ⟨l, hstep⟩
      have := hwell.step_lt hstep
      exact ⟨hinside q hq t ht, by omega⟩
  · rw [hvalue q]
    simp only [hmem]
    split
    · rename_i hq
      subst hq
      constructor
      · intro hv
        exact ⟨p, Or.inr rfl, rfl, Option.some.inj hv⟩
      · rintro ⟨p', hp' | rfl, hlast, rfl⟩
        · have := hbounds p' hp'
          omega
        · rfl
    · rename_i hq
      rw [h.value?_iff q v]
      constructor
      · rintro ⟨p', hp', hrest⟩
        exact ⟨p', Or.inl hp', hrest⟩
      · rintro ⟨p', hp' | rfl, hrest⟩
        · exact ⟨p', hp', hrest⟩
        · exact absurd hrest.1.symm hq
  · rcases (hmem p').1 hp' with hp' | rfl
    · have := hbounds p' hp'
      rw [hold p'.last (by omega) (by omega)]
      exact h.sink p' hp'
    · exact hsink
  · rcases (hmem p').1 hp' with hp' | rfl
    · exact h.single p' hp'
    · exact hsingle

/-! ## What leads into a part -/

theorem mem_entries_iff {q : Nat} :
    q ∈ Part.entries parts ↔ ∃ p ∈ parts, p.rule.isPattern = true ∧ p.first = q := by
  simp [Part.entries, and_assoc]

theorem mem_ends_iff {q : Nat} :
    q ∈ Part.ends parts ↔ ∃ p ∈ parts, p.rule.isPattern = false ∧ p.first = q := by
  simp [Part.ends, and_assoc]

/-- The first state of a part belongs to this part only. -/
theorem eq_of_has_first (h : n.Isolated parts) {p' : Part V} (hp : p ∈ parts) (hp' : p' ∈ parts)
    (hhas : p.Has p'.first) : p = p' :=
  h.adjoining.eq_of_has hp hp' hhas ⟨Nat.le_refl _, (h.adjoining.bounds hp').2.1⟩

/-- What leads into a part from elsewhere leads from the start to its first state. -/
theorem eq_start_of_enters (h : n.Isolated parts) (hp : p ∈ parts) {q t : Nat}
    (ht : t ∈ n.targets q) (hhas : p.Has t) (hq : ¬ p.Has q) : q = start ∧ t = p.first := by
  rcases h.mem_targets_iff.1 ht with ⟨l, hstep⟩
  have hlt := hstep.lt_size
  by_cases hstart : q = start
  · refine ⟨hstart, ?_⟩
    subst hstart
    have hfirst : ∃ p' ∈ parts, p'.first = t := by
      rw [targets, h.silent_start, h.edges_start] at ht
      rcases List.mem_append.1 ht with ht | ht
      · rcases List.mem_map.1 ht with ⟨e, he, rfl⟩
        rcases List.mem_map.1 he with ⟨x, hx, rfl⟩
        rcases mem_ends_iff.1 hx with ⟨p', hp', -, hfirst⟩
        exact ⟨p', hp', hfirst⟩
      · rcases mem_entries_iff.1 ht with ⟨p', hp', -, hfirst⟩
        exact ⟨p', hp', hfirst⟩
    rcases hfirst with ⟨p', hp', rfl⟩
    rw [h.eq_of_has_first hp hp' hhas]
  · -- Any other state has a part, which it does not lead out of.
    have hzero : start = 0 := rfl
    rcases h.adjoining.exists_has (q := q) (by omega) hlt with ⟨p', hp', hhas'⟩
    have hinside := h.inside p' hp' q hhas' t ht
    rw [h.adjoining.eq_of_has hp hp' hhas ⟨Nat.le_of_lt hinside.1, hinside.2⟩] at hq
    exact absurd hhas' hq

/-- A pattern is entered by one silent edge from the start to its first state. -/
theorem entered (h : n.Isolated parts) (hp : p ∈ parts) (hpattern : p.rule.isPattern = true) :
    (n.silent start).count p.first = 1 ∧
      ∀ q t, t ∈ n.targets q → p.Has t → ¬ p.Has q →
        q = start ∧ t = p.first ∧ t ∉ (n.edges start).map Edge.target := by
  have hentry : p.first ∈ n.silent start := by
    rw [h.silent_start]
    exact mem_entries_iff.2 ⟨p, hp, hpattern, rfl⟩
  refine ⟨List.count_eq_one_of_mem (h.simple.silent_nodup start) hentry, fun q t ht hhas hq => ?_⟩
  obtain ⟨hstart, hfirst⟩ := h.eq_start_of_enters hp ht hhas hq
  refine ⟨hstart, hfirst, fun hmem => ?_⟩
  -- An edge of the start leads to a part that is no pattern.
  have hends : t ∈ Part.ends parts := by
    rw [h.edges_start] at hmem
    simpa [Edge.ofRange] using hmem
  obtain ⟨p', hp', hend, rfl⟩ := mem_ends_iff.1 hends
  rw [h.eq_of_has_first hp hp' hhas, hend] at hpattern
  exact absurd hpattern (by simp)

end Isolated

end NFA

namespace Compiler

open MaximalMunch.NFA

variable {V : Type} {d : Dialect}

theorem isolated_new : (new d : Compiler V).automaton.Isolated [] where
  wellFormed := WellFormed.empty.addState none
  simple := Simple.empty.addState none
  adjoining := by
    show start + 1 = NFA.empty.addEmpty.size
    rw [size_addEmpty]
    rfl
  start_source := by
    intro q
    show start ∉ NFA.empty.addEmpty.targets q
    simp [targets]
  silent_start := silent_addEmpty ..
  edges_start := edges_addEmpty ..
  inside := by simp
  value?_iff := by
    intro q v
    show NFA.empty.addEmpty.value? q = some v ↔ _
    simp
  sink := by simp
  single := by simp

section Insert

variable {n : NFA V} {parts : List (Part V)}

/-- The entry of a new pattern is the last silent edge of the start. -/
theorem silent_start_entry (h : n.Isolated parts) :
    (n.addEmpty.addSilent start n.size).silent start = n.silent start ++ [n.size] := by
  have hlt := h.start_lt
  have hfresh : n.size ∉ n.silent start := Grows.fresh h.anchored (Or.inl rfl) (Nat.le_refl _)
  have hroom : start < n.addEmpty.size := by
    rw [size_addEmpty]
    omega
  rw [silent_addSilent, if_pos ⟨rfl, hroom, Nat.ne_of_lt hlt, by simpa using hfresh⟩, silent_addEmpty]

/-- The entry of a new pattern leads nowhere yet. -/
theorem targets_entry (h : n.Isolated parts) :
    (n.addEmpty.addSilent start n.size).targets n.size = [] := by
  have hne : n.size ≠ start := (Nat.ne_of_lt h.start_lt).symm
  simp [targets, edges_eq_nil, silent_eq_nil, silent_addSilent, hne]

theorem isolated_insert {c : Compiler V} (h : c.automaton.Isolated parts) {t : Tree} (ht : t.Sound)
    (text : String) (value : V) :
    ∃ p : Part V, p.rule = .pattern text value ∧
      (c.insert t value).automaton.Isolated (parts ++ [p]) := by
  have hs := h.anchored
  have hlt := h.start_lt
  have hsilent := silent_start_entry h
  have hempty := targets_entry h
  have hentry : (c.automaton.addEmpty.addSilent start c.automaton.size).Anchored c.automaton.size := by
    have hjoins := Joins.direct hs
    exact hjoins.toGrows.anchored hs (Or.inr (Nat.le_refl _)) hjoins.last_lt
  -- What is added is a part behind the start, and but for the entry a part behind the entry.
  have hspans := spans_insert hs ht.ordered
  have hlower : Spans _ _ _ _ t.Spells := Tree.lower_spans ht.ordered _ _ hentry
  have hranges := Tree.ranges_lower ht.proper
    ((Ranges.addEmpty h.wellFormed.edge_proper).addSilent start c.automaton.size) c.automaton.size
  have hsimple := Tree.lower_keeps (Simple.kept _) ht.proper
    (c.automaton.addEmpty.addSilent start c.automaton.size) c.automaton.size
    ((h.simple.addState none).addSilent start c.automaton.size)
  have hins : (c.insert t value).automaton = NFA.withAccept
      (t.lower (c.automaton.addEmpty.addSilent start c.automaton.size) c.automaton.size).1
      (t.lower (c.automaton.addEmpty.addSilent start c.automaton.size) c.automaton.size).2 value := rfl
  have hroom : start < (c.automaton.addEmpty.addSilent start c.automaton.size).size := by
    simp only [size_addSilent, size_addEmpty]
    omega
  have hsize : (c.automaton.addEmpty.addSilent start c.automaton.size).size = c.automaton.size + 1 := by
    simp
  have hedges : (c.automaton.addEmpty.addSilent start c.automaton.size).edges start =
      c.automaton.edges start := by
    simp
  rw [hins]
  generalize c.automaton.addEmpty.addSilent start c.automaton.size = n₁ at *
  generalize t.lower n₁ c.automaton.size = r at *
  have hproper := (hranges.addState (some value)).addSilent r.2 r.1.size
  have hbehind := grows_withAccept hentry hlower value
  have hne : start ≠ c.automaton.size := Nat.ne_of_lt hlt
  refine ⟨⟨.pattern text value, c.automaton.size, r.1.size⟩, rfl,
    h.grow (grows_withAccept hs hspans value) hproper
      ((hsimple.addState (some value)).addSilent r.2 r.1.size) rfl hspans.size_le
      (size_withAccept ..) ?_ ?_ (fun q hq t' ht' => ?_) ?_ (fun q => ?_) (by simp [Rule.isPattern])⟩
  · rw [hbehind.silent_eq hroom hne, hsilent]
    rfl
  · rw [hbehind.edges_eq (hproper start) hroom hne, hedges]
    simp [Part.ends, Rule.isPattern]
  · have hq' : q = c.automaton.size ∨ n₁.size ≤ q := by
      have := hq.1
      simp only at this
      omega
    have := hbehind.size_le_of_targets hproper hempty hq' ht'
    simp only
    omega
  · have hlast := hspans.last_lt
    have hne : r.1.size ≠ r.2 := by omega
    simp [targets, withAccept, addValue, edges_eq_nil, silent_addSilent, silent_eq_nil, hne]
  · rw [value?_withAccept, hspans.value?]
    rfl

end Insert

theorem isolated_addEndOfText {c : Compiler V} {parts : List (Part V)} (h : c.automaton.Isolated parts)
    (value : V) :
    ∃ p : Part V, p.rule = .endOfText value ∧
      (c.addEndOfText value).automaton.Isolated (parts ++ [p]) := by
  have hlt := h.start_lt
  have hmark : ∀ r ∈ [Range.point endMark], r.Proper := by decide
  have hne : c.automaton.size ≠ start := (Nat.ne_of_lt hlt).symm
  have hlast : ((c.automaton.addState (some value)).addEdges start [.point endMark]
      c.automaton.size).targets c.automaton.size = [] := by
    simp [targets, edges_addEdges, edges_eq_nil, silent_eq_nil, hne]
  have hgrows := grows_addEndOfText c value
  rw [automaton_addEndOfText] at hgrows ⊢
  refine ⟨⟨.endOfText value, c.automaton.size, c.automaton.size⟩, rfl,
    h.grow hgrows
      ((Ranges.addState h.wellFormed.edge_proper (some value)).addEdges start hmark c.automaton.size)
      ((h.simple.addState (some value)).addEdges start _ c.automaton.size) rfl (Nat.le_refl _)
      (by simp) ?_ ?_ (fun q hq t ht => ?_) hlast (fun q => ?_) (fun _ => rfl)⟩
  · simp [Part.entries, Rule.isPattern]
  · have hroom : start < c.automaton.size + 1 := by omega
    simp [edges_addEdges, hroom, Part.ends, Rule.isPattern]
  · obtain rfl : q = c.automaton.size := Nat.le_antisymm hq.2 hq.1
    rw [hlast] at ht
    exact absurd ht (by simp)
  · rw [value?_addEdges, value?_addState]
    rfl

/-- The automaton of a compiler has a part for each of its rules. -/
theorem Collects.isolated {rules : List (Rule V)} {c : Compiler V} (h : Collects d rules c) :
    ∃ parts : List (Part V), parts.map Part.rule = rules ∧ c.automaton.Isolated parts := by
  induction h with
  | new =>
      exact ⟨[], rfl, isolated_new⟩
  | @pattern rules c c' text value _ hadd ih =>
      obtain ⟨parts, rfl, hparts⟩ := ih
      obtain ⟨t, ht, -, rfl⟩ := exists_insert_of_add hadd
      obtain ⟨p, hp, hnew⟩ := isolated_insert hparts (Dialect.parse_sound ht) text value
      exact ⟨parts ++ [p], by simp [hp], hnew⟩
  | @endOfText rules c value _ ih =>
      obtain ⟨parts, rfl, hparts⟩ := ih
      obtain ⟨p, hp, hnew⟩ := isolated_addEndOfText hparts value
      exact ⟨parts ++ [p], by simp [hp], hnew⟩

/-- Whatever calls have been made on a new compiler: the states behind its start are cut into contiguous
parts, one for each rule that was added and in their order; nothing leads from one part into another or back
to the start; a pattern is entered by one silent edge from the start and accepts in its last state, which
nothing leaves. A pattern that is refused leaves the compiler as it was, and `addAll` leaves what the patterns
before the refused one make of it. -/
theorem calls_isolated (d : Dialect) (ks : List (Call V)) :
    let c := (new d).calls ks
    let n := c.automaton
    (∃ parts : List (Part V), parts.map Part.rule = (new d).rulesOf ks ∧ n.Isolated parts ∧
      ∀ p ∈ parts, p.rule.isPattern = true →
        (n.silent start).count p.first = 1 ∧
          ∀ q t, t ∈ n.targets q → p.Has t → ¬ p.Has q →
            q = start ∧ t = p.first ∧ t ∉ (n.edges start).map Edge.target) ∧
    (∀ pattern value e, (c.call (.add pattern value)).2 = some e →
      (c.call (.add pattern value)).1 = c) ∧
    (∀ ps e, (c.call (.addAll ps)).2 = some e → ∃ before p after, ps = before ++ p :: after ∧
      c.addAll before = ((c.call (.addAll ps)).1, none) ∧
      ((c.call (.addAll ps)).1.add p.1 p.2).2 = some e) := by
  intro c n
  obtain ⟨parts, hrules, hparts⟩ := (collects_calls d ks).isolated
  refine ⟨⟨parts, hrules, hparts, fun p hp hpattern => hparts.entered hp hpattern⟩,
    fun pattern value e he => fst_add_of_error he, fun ps e he => ?_⟩
  obtain ⟨p, after, hps, hbefore, hp⟩ := addAll_of_error he
  exact ⟨c.accepted ps, p, after, hps, hbefore, hp⟩

end Compiler

end MaximalMunch
