import Mathlib.Data.Set.Card
import Mathlib.Order.Interval.Set.Nat
import MaximalMunch.Proofs.Discovery

/-!
# One state for each set of states

Two words lead to one deterministic state if and only if they lead to the same states of the automaton that
it was made from. So there are as many deterministic states as there are such sets, and the work list ends.

- `Powerset.Rounds`, `NFA.Constructs` : the rounds of the work list, whether they end or not
- `Powerset.rounds_run`     : the rounds end where the work list does, since there are only so many sets
- `NFA.reachedBy`           : the states that a word leads to
- `Finished.exists_run?`    : a deterministic state is reached by a word, by induction on its number
- `Finished.run?_eq_iff`    : when two words lead to one deterministic state
- `Finished.size_eq_ncard`  : the number of deterministic states
- `NFA.determinize_states`  : the construction ends, with one state for each set that a word leads to
-/

namespace MaximalMunch

theorem length_sublists {α : Type} (as : List α) : (sublists as).length = 2 ^ as.length := by
  induction as with
  | nil =>
      rfl
  | cons a as ih =>
      rw [sublists, List.length_append, List.length_map, ih, List.length_cons, Nat.pow_succ]
      omega

/-- Two functions that identify the same members of a set have as many values there. -/
theorem ncard_image_congr {α β γ : Type} {W : Set α} {f : α → β} {g : α → γ}
    (h : ∀ u ∈ W, ∀ v ∈ W, f u = f v ↔ g u = g v) : (f '' W).ncard = (g '' W).ncard := by
  -- Each pair of values is determined by either half.
  have hfst : Set.InjOn Prod.fst ((fun w => (f w, g w)) '' W) := by
    rintro _ ⟨u, hu, rfl⟩ _ ⟨v, hv, rfl⟩ huv
    exact Prod.ext huv ((h u hu v hv).1 huv)
  have hsnd : Set.InjOn Prod.snd ((fun w => (f w, g w)) '' W) := by
    rintro _ ⟨u, hu, rfl⟩ _ ⟨v, hv, rfl⟩ huv
    exact Prod.ext ((h u hu v hv).2 huv) huv
  calc
    (f '' W).ncard = (Prod.fst '' ((fun w => (f w, g w)) '' W)).ncard := by rw [Set.image_image]
    _ = ((fun w => (f w, g w)) '' W).ncard := hfst.ncard_image
    _ = (Prod.snd '' ((fun w => (f w, g w)) '' W)).ncard := hsnd.ncard_image.symm
    _ = (g '' W).ncard := by rw [Set.image_image]

namespace NFA

/-! ## The work list ends -/

namespace Powerset

variable {V : Type} [DecidableEq V] {n : NFA V} {p p' : Powerset V}

/-- The work list `p` comes to `x` after some rounds, each of which connects the state of one entry. -/
inductive Rounds (n : NFA V) : Nat → Powerset V → Except (Fault V) (Array (DFA.State V)) → Prop where
  | done {states : Array (DFA.State V)} {index : Std.HashMap (List Nat) Nat} :
      Rounds n 0 ⟨states, index, []⟩ (.ok states)
  | fault {states : Array (DFA.State V)} {index : Std.HashMap (List Nat) Nat} {q : Nat} {c : List Nat}
      {pending : List (Nat × List Nat)} {f : Fault V} :
      connect n ⟨states, index, pending⟩ (states.getD q {}) (Region.ofEdges (n.edgesOf c)) = .error f →
        Rounds n 1 ⟨states, index, (q, c) :: pending⟩ (.error f)
  | round {k : Nat} {states : Array (DFA.State V)} {index : Std.HashMap (List Nat) Nat} {q : Nat}
      {c : List Nat} {pending : List (Nat × List Nat)} {row : DFA.State V} {p : Powerset V}
      {hadv : Advances n ⟨states, index, pending⟩ p} {x : Except (Fault V) (Array (DFA.State V))} :
      connect n ⟨states, index, pending⟩ (states.getD q {}) (Region.ofEdges (n.edgesOf c)) =
          .ok ⟨row, p, hadv⟩ →
        Rounds n k { p with states := p.states.setIfInBounds q row } x →
          Rounds n (k + 1) ⟨states, index, (q, c) :: pending⟩ x

/-- The rounds of a work list have one end. -/
theorem Rounds.unique {j k : Nat} {x y : Except (Fault V) (Array (DFA.State V))} (hx : Rounds n j p x)
    (hy : Rounds n k p y) : j = k ∧ x = y := by
  induction hx generalizing k with
  | done =>
      cases hy
      exact ⟨rfl, rfl⟩
  | fault hconnect =>
      cases hy with
      | fault hconnect' =>
          rw [hconnect] at hconnect'
          exact ⟨rfl, congrArg Except.error (Except.error.inj hconnect')⟩
      | round hconnect' =>
          rw [hconnect] at hconnect'
          exact absurd hconnect' (by simp)
  | round hconnect _ ih =>
      cases hy with
      | fault hconnect' =>
          rw [hconnect] at hconnect'
          exact absurd hconnect' (by simp)
      | round hconnect' hrest =>
          rw [hconnect] at hconnect'
          cases hconnect'
          obtain ⟨rfl, rfl⟩ := ih hrest
          exact ⟨rfl, rfl⟩

/-- The entries of the work list, and the configurations that can still become entries. -/
def workload (n : NFA V) (p : Powerset V) : Nat := p.unregistered n + p.pending.length

/-- A configuration that becomes an entry can do so no more. -/
theorem workload_register {c : List Nat} {q : Nat} {hc : c.Sublist (List.range n.size)}
    {hadv : Advances n p p'} (h : register n p c hc = .ok ⟨q, p', hadv⟩) :
    p'.workload n ≤ p.workload n := by
  rcases register_cases h with ⟨rfl, -⟩ | ⟨-, -, value, rfl⟩
  · exact Nat.le_refl _
  · rcases hadv with hlt | ⟨-, hpending⟩
    · simp only [workload, List.length_cons]
      omega
    · exact absurd hpending (List.cons_ne_self _ _)

theorem workload_connect {state row : DFA.State V} {rs : List Region} {hadv : Advances n p p'}
    (h : connect n p state rs = .ok ⟨row, p', hadv⟩) : p'.workload n ≤ p.workload n :=
  connect_keeps (P := fun p' => p'.workload n ≤ p.workload n)
    (fun _ _ _ _ _ _ hle hreg => Nat.le_trans (workload_register hreg) hle) (Nat.le_refl _) h

/-- Each round takes an entry off the work list, so there are at most as many rounds as there is work. -/
theorem rounds_run (n : NFA V) (p : Powerset V) : ∃ k ≤ p.workload n, Rounds n k p (run n p) := by
  fun_induction run n p with
  | case1 states index =>
      exact ⟨0, Nat.zero_le _, .done⟩
  | case2 states index q c pending f hconnect =>
      refine ⟨1, ?_, .fault hconnect⟩
      simp only [workload, List.length_cons]
      omega
  | case3 states index q c pending row p hadv hconnect ih =>
      obtain ⟨k, hk, hrounds⟩ := ih
      refine ⟨k + 1, ?_, .round hconnect hrounds⟩
      have hle : p.workload n ≤ workload n ⟨states, index, pending⟩ := workload_connect hconnect
      have hsame : workload n { p with states := p.states.setIfInBounds q row } =
          p.workload n := rfl
      have hpop : workload n ⟨states, index, (q, c) :: pending⟩ =
          workload n ⟨states, index, pending⟩ + 1 := rfl
      omega

end Powerset

section Ends

variable {V : Type} [DecidableEq V] {n : NFA V} {start : Nat}

/-- The construction from `start` comes to `x` after some rounds of its work list. -/
inductive Constructs (n : NFA V) (start : Nat) : Nat → Except (Fault V) (DFA V) → Prop where
  | fault {f : Fault V} :
      Powerset.register n {} (n.closure [start]) (closure_sublist_range n _) = .error f →
        Constructs n start 0 (.error f)
  | rounds {q k : Nat} {p : Powerset V} {hadv : Powerset.Advances n {} p}
      {x : Except (Fault V) (Array (DFA.State V))} :
      Powerset.register n {} (n.closure [start]) (closure_sublist_range n _) = .ok ⟨q, p, hadv⟩ →
        Powerset.Rounds n k p x → Constructs n start k (x.map fun states => { states, start := q })

theorem Constructs.unique {j k : Nat} {x y : Except (Fault V) (DFA V)} (hx : Constructs n start j x)
    (hy : Constructs n start k y) : j = k ∧ x = y := by
  cases hx with
  | fault hreg =>
      cases hy with
      | fault hreg' =>
          rw [hreg] at hreg'
          exact ⟨rfl, congrArg Except.error (Except.error.inj hreg')⟩
      | rounds hreg' _ =>
          rw [hreg] at hreg'
          exact absurd hreg' (by simp)
  | rounds hreg hrounds =>
      cases hy with
      | fault hreg' =>
          rw [hreg] at hreg'
          exact absurd hreg' (by simp)
      | rounds hreg' hrounds' =>
          rw [hreg] at hreg'
          cases hreg'
          obtain ⟨rfl, rfl⟩ := hrounds.unique hrounds'
          exact ⟨rfl, rfl⟩

omit [DecidableEq V] in
/-- At first each set of states can become an entry. -/
theorem workload_empty (n : NFA V) : Powerset.workload n {} = 2 ^ n.size := by
  have hall : Powerset.unregistered n ({} : Powerset V) = (sublists (List.range n.size)).length :=
    List.countP_eq_length.2 (by simp)
  calc
    Powerset.workload n {} = (sublists (List.range n.size)).length := hall
    _ = 2 ^ n.size := by rw [length_sublists, List.length_range]

/-- The construction comes to an end, and to one only, after at most as many rounds as there are sets of
states. -/
theorem constructs_iff (n : NFA V) (start : Nat) :
    ∃ k ≤ 2 ^ n.size, ∀ j x, Constructs n start j x ↔ j = k ∧ x = n.determinize start := by
  have hexists : ∃ k ≤ 2 ^ n.size, Constructs n start k (n.determinize start) := by
    unfold determinize
    split
    · rename_i f hreg
      exact ⟨0, Nat.zero_le _, .fault hreg⟩
    · rename_i q p hadv hreg
      obtain ⟨k, hk, hrounds⟩ := Powerset.rounds_run n p
      have hle := Powerset.workload_register hreg
      rw [workload_empty] at hle
      refine ⟨k, Nat.le_trans hk hle, ?_⟩
      have hends := Constructs.rounds hreg hrounds
      split
      · rename_i f hrun
        rw [hrun] at hends
        exact hends
      · rename_i states hrun
        rw [hrun] at hends
        exact hends
  obtain ⟨k, hk, hends⟩ := hexists
  refine ⟨k, hk, fun j x => ⟨fun h => h.unique hends, ?_⟩⟩
  rintro ⟨rfl, rfl⟩
  exact hends

end Ends

/-! ## Words and deterministic states -/

/-- The states that a word leads to. -/
def reachedBy {V : Type} (n : NFA V) (start : Nat) (w : List Int) : Set Nat := {q | Path n.Step start w q}

section Reached

variable {V : Type} {n : NFA V} {start : Nat}

theorem reachedBy_subset (hn : n.WellFormed) (hs : start < n.size) (w : List Int) :
    n.reachedBy start w ⊆ Set.Iio n.size := by
  intro q hq
  exact (Path.confine (P := (· < n.size)) (fun x l y _ hstep => ⟨hstep, hn.step_lt hstep⟩) hq hs).2

/-- Each word leads to one of the sets of states, and no word that is followed leads to the empty one. -/
theorem ncard_reachedBy_le (hn : n.WellFormed) (hs : start < n.size) :
    {S : Set Nat | S.Nonempty ∧ ∃ w, n.reachedBy start w = S}.ncard ≤ 2 ^ n.size - 1 := by
  have hsub : {S : Set Nat | S.Nonempty ∧ ∃ w, n.reachedBy start w = S} ⊆ 𝒫 (Set.Iio n.size) \ {∅} := by
    rintro S ⟨hne, w, rfl⟩
    exact ⟨reachedBy_subset hn hs w, fun hempty => hne.ne_empty hempty⟩
  have hfinite : (𝒫 (Set.Iio n.size) \ {∅}).Finite := (Set.finite_Iio n.size).powerset.sdiff
  calc
    _ ≤ (𝒫 (Set.Iio n.size) \ {∅}).ncard := Set.ncard_le_ncard hsub hfinite
    _ = (𝒫 (Set.Iio n.size)).ncard - 1 := Set.ncard_sdiff_singleton_of_mem (Set.empty_subset _)
    _ = 2 ^ n.size - 1 := by rw [Set.ncard_powerset _ (Set.finite_Iio n.size), Set.ncard_Iio_nat]

end Reached

namespace Finished

variable {V : Type} [DecidableEq V] {n : NFA V} {start : Nat} {d : DFA V} {cs : List (List Nat)}
  {index : Std.HashMap (List Nat) Nat}

/-- Each state is reached by a word. -/
theorem exists_run? (hn : n.WellFormed) (h : Finished n start d cs index) {q : Nat} (hq : q < d.size) :
    ∃ w, d.run? d.start w = some q := by
  -- A state is discovered from one with a smaller number, so the induction is on the number.
  induction q using Nat.strong_induction_on with
  | _ q ih =>
      by_cases hzero : q = 0
      · subst hzero
        exact ⟨[], by rw [h.start_eq, DFA.run?_nil]⟩
      · obtain ⟨j, hj, e, he, htarget⟩ := h.exists_edge_of_pos (Nat.pos_of_ne_zero hzero) hq
        obtain ⟨w, hw⟩ := ih j hj (Nat.lt_trans hj hq)
        obtain ⟨hseparate, -⟩ := h.edges_spec hn j
        have hfollow : d.follow? j e.lo = some q :=
          (DFA.follow?_eq_some_iff hseparate).2 ⟨e, he, ⟨Int.le_refl _, hseparate.proper e he⟩, htarget⟩
        refine ⟨w ++ [e.lo], ?_⟩
        rw [DFA.run?_snoc, hw]
        exact hfollow

theorem start_configuration (h : Finished n start d cs index) : cs[d.start]? = some (n.closure [start]) := by
  rw [h.start_eq]
  exact h.first

/-- The state that a word is followed to stands for the states that the word leads to. -/
theorem exists_configuration (hn : n.WellFormed) (hs : start < n.size) (h : Finished n start d cs index)
    {w : List Int} {q : Nat} (hw : d.run? d.start w = some q) :
    ∃ c, cs[q]? = some c ∧ n.Configuration start w c ∧ c ≠ [] :=
  h.tracks.configuration_of_run? hn hs h.start_configuration hw

/-- A word is followed if it leads somewhere. -/
theorem isSome_run?_iff (hn : n.WellFormed) (hs : start < n.size) (h : Finished n start d cs index)
    {w : List Int} : (d.run? d.start w).isSome ↔ (n.reachedBy start w).Nonempty := by
  rw [Option.isSome_iff_exists]
  constructor
  · rintro ⟨q, hq⟩
    obtain ⟨c, -, hconf, hne⟩ := h.exists_configuration hn hs hq
    exact hconf.ne_nil_iff.1 hne
  · exact h.tracks.exists_run? hn hs h.start_configuration

/-- Two words are followed to one state if and only if they lead to the same states. -/
theorem run?_eq_iff (hn : n.WellFormed) (hs : start < n.size) (h : Finished n start d cs index)
    {u v : List Int} (hu : (d.run? d.start u).isSome) (hv : (d.run? d.start v).isSome) :
    d.run? d.start u = d.run? d.start v ↔ n.reachedBy start u = n.reachedBy start v := by
  obtain ⟨q, hq⟩ := Option.isSome_iff_exists.1 hu
  obtain ⟨q', hq'⟩ := Option.isSome_iff_exists.1 hv
  obtain ⟨c, hc, hconf, -⟩ := h.exists_configuration hn hs hq
  obtain ⟨c', hc', hconf', -⟩ := h.exists_configuration hn hs hq'
  have hset : n.reachedBy start u = n.reachedBy start v ↔ c = c' := by
    constructor
    · intro hset
      -- Both lists ascend, so they are equal if they have the same members.
      refine hconf.ascending.eq_of_mem_iff hconf'.ascending fun x => ?_
      rw [hconf.mem_iff, hconf'.mem_iff]
      exact Set.ext_iff.1 hset x
    · rintro rfl
      ext x
      exact (hconf.mem_iff x).symm.trans (hconf'.mem_iff x)
  rw [hset, hq, hq']
  constructor
  · intro heq
    obtain rfl : q = q' := Option.some.inj heq
    exact Option.some.inj (hc.symm.trans hc')
  · rintro rfl
    rw [h.number_unique hc hc']

/-- There are as many states as the words that are followed have ends. -/
theorem size_eq_ncard_run? (hn : n.WellFormed) (hs : start < n.size) (h : Finished n start d cs index) :
    d.size = ((fun w => d.run? d.start w) '' {w | (d.run? d.start w).isSome}).ncard := by
  have himage : (fun w => d.run? d.start w) '' {w | (d.run? d.start w).isSome} = some '' Set.Iio d.size := by
    ext o
    constructor
    · rintro ⟨w, hw, rfl⟩
      obtain ⟨q, hq⟩ := Option.isSome_iff_exists.1 hw
      obtain ⟨c, hc, -⟩ := h.exists_configuration hn hs hq
      exact ⟨q, h.lt_size_iff.2 ⟨c, hc⟩, hq.symm⟩
    · rintro ⟨q, hq, rfl⟩
      obtain ⟨w, hw⟩ := h.exists_run? hn hq
      exact ⟨w, Option.isSome_iff_exists.2 ⟨q, hw⟩, hw⟩
  rw [himage, Set.ncard_image_of_injective _ (Option.some_injective _), Set.ncard_Iio_nat]

/-- There are as many states as there are sets of states that a word leads to, but for the empty one. -/
theorem size_eq_ncard (hn : n.WellFormed) (hs : start < n.size) (h : Finished n start d cs index) :
    d.size = {S : Set Nat | S.Nonempty ∧ ∃ w, n.reachedBy start w = S}.ncard := by
  have himage : n.reachedBy start '' {w | (d.run? d.start w).isSome} =
      {S : Set Nat | S.Nonempty ∧ ∃ w, n.reachedBy start w = S} := by
    ext S
    constructor
    · rintro ⟨w, hw, rfl⟩
      exact ⟨(h.isSome_run?_iff hn hs).1 hw, w, rfl⟩
    · rintro ⟨hne, w, rfl⟩
      exact ⟨w, (h.isSome_run?_iff hn hs).2 hne, rfl⟩
  calc
    d.size = ((fun w => d.run? d.start w) '' {w | (d.run? d.start w).isSome}).ncard :=
      h.size_eq_ncard_run? hn hs
    _ = (n.reachedBy start '' {w | (d.run? d.start w).isSome}).ncard :=
      ncard_image_congr fun u hu v hv => h.run?_eq_iff hn hs hu hv
    _ = _ := by rw [himage]

end Finished

variable {V : Type} [DecidableEq V] {n : NFA V} {start : Nat}

/-- The construction ends, in one way, after at most as many rounds as there are sets of states. If it
succeeds, each deterministic state is reached by a word, and two words that are followed come to one state if
and only if they lead to the same states. So there are as many deterministic states as there are sets of
states that a word leads to, without the empty one, and fewer than there are sets of states. -/
theorem determinize_states (hn : n.WellFormed) (hs : start < n.size) :
    (∃ k ≤ 2 ^ n.size, ∀ j x, Constructs n start j x ↔ j = k ∧ x = n.determinize start) ∧
    ∀ d, n.determinize start = .ok d →
      (∀ q, q < d.size → ∃ w, d.run? d.start w = some q) ∧
      (∀ u v, (d.run? d.start u).isSome → (d.run? d.start v).isSome →
        (d.run? d.start u = d.run? d.start v ↔ n.reachedBy start u = n.reachedBy start v)) ∧
      d.size = {S : Set Nat | S.Nonempty ∧ ∃ w, n.reachedBy start w = S}.ncard ∧
      d.size ≤ 2 ^ n.size - 1 := by
  refine ⟨constructs_iff n start, fun d hd => ?_⟩
  obtain ⟨cs, index, h⟩ := determinize_finished hn hs hd
  have hsize := h.size_eq_ncard hn hs
  refine ⟨fun q hq => h.exists_run? hn hq, fun u v hu hv => h.run?_eq_iff hn hs hu hv, hsize, ?_⟩
  rw [hsize]
  exact ncard_reachedBy_le hn hs

/-- The loops make four sets of states, one of which two different words lead to. -/
theorem determinize_states_looping :
    looping.WellFormed ∧ 0 < looping.size ∧ ∃ d, looping.determinize 0 = .ok d ∧ d.size = 4 ∧
      {S : Set Nat | S.Nonempty ∧ ∃ w, looping.reachedBy 0 w = S}.ncard = 4 ∧
      looping.reachedBy 0 [98] = looping.reachedBy 0 [98, 97] := by
  have hn : looping.WellFormed := by decide
  have hs : 0 < looping.size := by decide
  have hb : looped.run? looped.start [98] = some 2 := by with_unfolding_all rfl
  have hba : looped.run? looped.start [98, 97] = some 2 := by with_unfolding_all rfl
  obtain ⟨-, hsame, hcount, -⟩ := (determinize_states hn hs).2 looped determinize_looping
  refine ⟨hn, hs, looped, determinize_looping, rfl, hcount.symm, (hsame _ _ ?_ ?_).1 (hb.trans hba.symm)⟩
  · rw [hb]
    rfl
  · rw [hba]
    rfl

end NFA

end MaximalMunch
