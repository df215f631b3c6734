import Mathlib.Data.List.Sort
import Mathlib.Logic.Relation
import MaximalMunch.NFA.Listing
import MaximalMunch.Proofs.SilentClosure

/-!
# Silent closures as lists

The list of a silent closure grows while an index goes along it. What is behind the entries before the index is
listed, so that the list holds the closure when the index comes to its end, and it gets there because no state
is listed twice. The sorted list depends on the closed set of states alone, which makes it a key for this set.

- `NFA.silentReach_addAll_iff`     : silent paths are those over the silent edges that were added
- `NFA.closure_eq_iff`             : lists with one closed set have one closure
- `Listing.Listed`                 : the invariant of the loop, and `Listed.turn`, what a turn does to it
- `Listing.turns_iff`              : the loop ends, without a fault, with the closure
- `NFA.closure_exact`              : the closure of existing states in an automaton that was built
-/

namespace MaximalMunch

namespace NFA

variable {V : Type}

/-! ## Automata that are built -/

namespace Addition

/-- An edge leaves a state that is there. -/
def Allowed (n : NFA V) : Addition V → Prop
  | state => True
  | value _ => True
  | edge source _ _ => source < n.size
  | silent source _ => source < n.size

/-- The state `q` is reached from one of the states `qs` over silent edges that are among the additions. -/
def Reaches (as : List (Addition V)) (qs : List Nat) (q : Nat) : Prop :=
  ∃ s ∈ qs, Relation.ReflTransGen (fun a b => silent a b ∈ as) s q

end Addition

/-- Each addition is allowed where it is made. -/
def AllAllowed : NFA V → List (Addition V) → Prop
  | _, [] => True
  | n, a :: as => a.Allowed n ∧ AllAllowed (a.apply n) as

namespace Addition

variable {n : NFA V} {a : Addition V}

/-- Only a silent edge between two states adds something that is read silently. -/
theorem mem_silent_apply_iff (h : a.Allowed n) {s t : Nat} :
    t ∈ (a.apply n).silent s ↔ t ∈ n.silent s ∨ (a = .silent s t ∧ s ≠ t) := by
  cases a with
  | state =>
      simp [apply]
  | value v =>
      simp [apply, addValue]
  | edge source r target =>
      simp [apply, addEdge]
  | silent source target =>
      rw [apply, silent_addSilent, List.mem_append]
      constructor
      · rintro (ht | ht)
        · exact Or.inl ht
        · split at ht
          · rename_i hnew
            obtain rfl : t = target := by simpa using ht
            obtain rfl := hnew.1
            exact Or.inr ⟨rfl, hnew.2.2.1⟩
          · exact absurd ht (by simp)
      · rintro (ht | ⟨heq, hne⟩)
        · exact Or.inl ht
        · obtain ⟨rfl, rfl⟩ : source = s ∧ target = t := by simpa using heq
          by_cases hold : target ∈ n.silent source
          · exact Or.inl hold
          · rw [if_pos ⟨rfl, h, hne, hold⟩]
            exact Or.inr (List.mem_singleton.2 rfl)

end Addition

theorem mem_silent_addAll_iff {n : NFA V} {as : List (Addition V)} (h : AllAllowed n as) {s t : Nat} :
    t ∈ (n.addAll as).silent s ↔ t ∈ n.silent s ∨ (.silent s t ∈ as ∧ s ≠ t) := by
  induction as generalizing n with
  | nil =>
      simp [addAll]
  | cons a as ih =>
      rw [addAll, ih h.2, Addition.mem_silent_apply_iff h.1, List.mem_cons, or_and_right, or_assoc,
        eq_comm (a := a)]

section FromEmpty

variable {as : List (Addition V)} (h : AllAllowed empty as)

include h

theorem mem_silent_addAll_empty_iff {s t : Nat} :
    t ∈ (empty.addAll as).silent s ↔ .silent s t ∈ as ∧ s ≠ t := by
  rw [mem_silent_addAll_iff h]
  simp

/-- Silent edges lead to states if those that were added do so in the end. -/
theorem silentInside_addAll (hinside : ∀ s t, .silent s t ∈ as → t < (empty.addAll as).size) :
    (empty.addAll as).SilentInside :=
  fun s t ht => hinside s t ((mem_silent_addAll_empty_iff h).1 ht).1

/-- A silent path leads over silent edges that were added. Those from a state to itself make no difference. -/
theorem silentReach_addAll_iff {s t : Nat} :
    (empty.addAll as).SilentReach s t ↔
      Relation.ReflTransGen (fun a b => Addition.silent a b ∈ as) s t := by
  constructor
  · intro hreach
    induction hreach with
    | refl s =>
        exact .refl
    | step hmem _ ih =>
        exact .head ((mem_silent_addAll_empty_iff h).1 hmem).1 ih
  · intro hpath
    induction hpath using Relation.ReflTransGen.head_induction_on with
    | refl =>
        exact .refl t
    | @head a b hmem _ ih =>
        by_cases hab : a = b
        · rw [hab]
          exact ih
        · exact .step ((mem_silent_addAll_empty_iff h).2 ⟨hmem, hab⟩) ih

end FromEmpty

/-! ## Closures are canonical -/

theorem SilentReach.trans {n : NFA V} {s t u : Nat} (h : n.SilentReach s t) (h' : n.SilentReach t u) :
    n.SilentReach s u := by
  induction h with
  | refl s =>
      exact h'
  | step hmem _ ih =>
      exact .step hmem (ih h')

section Canonical

variable {n : NFA V} (hn : n.SilentInside) {qs rs : List Nat}

include hn

/-- A closure is named by what it holds. -/
theorem closure_eq_iff :
    n.closure qs = n.closure rs ↔
      ∀ q, (∃ s ∈ qs, s < n.size ∧ n.SilentReach s q) ↔ ∃ s ∈ rs, s < n.size ∧ n.SilentReach s q := by
  simp only [← mem_closure_iff_of_silentInside hn]
  constructor
  · intro h q
    rw [h]
  · intro h
    exact (closure_ascending n qs).eq_of_mem_iff (closure_ascending n rs) fun q => h q

theorem closure_closure (qs : List Nat) : n.closure (n.closure qs) = n.closure qs := by
  refine (closure_ascending n _).eq_of_mem_iff (closure_ascending n qs) fun q => ?_
  rw [mem_closure_iff_of_silentInside hn]
  constructor
  · rintro ⟨s, hs, -, hreach⟩
    obtain ⟨r, hr, hlt, hbefore⟩ := (mem_closure_iff_of_silentInside hn).1 hs
    exact (mem_closure_iff_of_silentInside hn).2 ⟨r, hr, hlt, hbefore.trans hreach⟩
  · intro hq
    exact ⟨q, hq, lt_size_of_mem_closure hq, .refl q⟩

theorem closure_mono (h : qs ⊆ rs) : n.closure qs ⊆ n.closure rs := by
  intro q hq
  obtain ⟨s, hs, hlt, hreach⟩ := (mem_closure_iff_of_silentInside hn).1 hq
  exact (mem_closure_iff_of_silentInside hn).2 ⟨s, h hs, hlt, hreach⟩

end Canonical

/-! ## The growing list -/

namespace Listing

section Enlist

variable {listed qs : List Nat}

theorem enlist_cons (listed : List Nat) (q : Nat) (qs : List Nat) :
    enlist listed (q :: qs) = enlist (if q ∈ listed then listed else listed ++ [q]) qs := rfl

theorem mem_enlist {q : Nat} : q ∈ enlist listed qs ↔ q ∈ listed ∨ q ∈ qs := by
  induction qs generalizing listed with
  | nil =>
      simp [enlist]
  | cons r rs ih =>
      rw [enlist_cons, ih, List.mem_cons]
      split
      · rename_i hr
        constructor
        · rintro (hq | hq)
          · exact Or.inl hq
          · exact Or.inr (Or.inr hq)
        · rintro (hq | rfl | hq)
          · exact Or.inl hq
          · exact Or.inl hr
          · exact Or.inr hq
      · rw [List.mem_append, List.mem_singleton, or_assoc]

theorem nodup_enlist (h : listed.Nodup) (qs : List Nat) : (enlist listed qs).Nodup := by
  induction qs generalizing listed with
  | nil =>
      exact h
  | cons r rs ih =>
      rw [enlist_cons]
      split
      · exact ih h
      · rename_i hr
        refine ih (List.nodup_append.2 ⟨h, List.nodup_singleton r, ?_⟩)
        rintro a ha b hb rfl
        rw [List.mem_singleton] at hb
        exact hr (hb ▸ ha)

/-- What is listed keeps its place. -/
theorem prefix_enlist (listed qs : List Nat) : listed <+: enlist listed qs := by
  induction qs generalizing listed with
  | nil =>
      exact List.prefix_rfl
  | cons r rs ih =>
      rw [enlist_cons]
      split
      · exact ih listed
      · exact (List.prefix_append listed [r]).trans (ih _)

end Enlist

/-- The loop has listed states that `qs` reach silently, `qs` among them, each once. What is behind the
entries before the index `i` is listed, too. -/
structure Listed (n : NFA V) (qs listed : List Nat) (i : Nat) : Prop where
  nodup : listed.Nodup
  lt_size : ∀ q ∈ listed, q < n.size
  starts : ∀ q ∈ qs, q ∈ listed
  reached : ∀ q ∈ listed, ∃ s ∈ qs, n.SilentReach s q
  handled : ∀ q ∈ listed.take i, ∀ t ∈ n.silent q, t ∈ listed

theorem turn_of_lt {n : NFA V} {q : Nat} (hq : q < n.size) (listed : List Nat) :
    turn n listed q = .ok (enlist listed (n.silent q)) := by
  have hs : n.states[q]? = some n.states[q] := Array.getElem?_eq_getElem hq
  simp only [turn, silent, hs]

namespace Listed

variable {n : NFA V} {qs listed : List Nat} {i q : Nat}

theorem initial (hqs : ∀ q ∈ qs, q < n.size) : Listed n qs (enlist [] qs) 0 where
  nodup := nodup_enlist List.nodup_nil qs
  lt_size := fun q hq => hqs q (by simpa [mem_enlist] using hq)
  starts := fun q hq => mem_enlist.2 (Or.inr hq)
  reached := fun q hq => ⟨q, by simpa [mem_enlist] using hq, .refl q⟩
  handled := by simp

/-- A turn handles the entry at the index. -/
theorem turn (hn : n.SilentInside) (h : Listed n qs listed i) (hq : listed[i]? = some q) :
    Listed n qs (enlist listed (n.silent q)) (i + 1) where
  nodup := nodup_enlist h.nodup _
  lt_size := by
    intro t ht
    rcases mem_enlist.1 ht with ht | ht
    · exact h.lt_size t ht
    · exact hn q t ht
  starts := fun s hs => mem_enlist.2 (Or.inl (h.starts s hs))
  reached := by
    intro t ht
    rcases mem_enlist.1 ht with ht | ht
    · exact h.reached t ht
    · obtain ⟨s, hs, hreach⟩ := h.reached q (List.mem_of_getElem? hq)
      exact ⟨s, hs, hreach.trans (.step ht (.refl t))⟩
  handled := by
    -- New entries stand at the end, so the entries up to the index are the old ones.
    have htake : (enlist listed (n.silent q)).take (i + 1) = listed.take i ++ [q] := by
      obtain ⟨more, hmore⟩ := prefix_enlist listed (n.silent q)
      have hlt := (List.getElem?_eq_some_iff.1 hq).1
      rw [← hmore, List.take_append_of_le_length hlt, List.take_add_one, hq]
      rfl
    intro s hs t ht
    rw [htake, List.mem_append, List.mem_singleton] at hs
    rcases hs with hs | rfl
    · exact mem_enlist.2 (Or.inl (h.handled s hs t ht))
    · exact mem_enlist.2 (Or.inr ht)

theorem length_le (h : Listed n qs listed i) : listed.length ≤ n.size := by
  have hsub : listed ⊆ List.range n.size := fun q hq => List.mem_range.2 (h.lt_size q hq)
  simpa using (List.subperm_of_subset h.nodup hsub).length_le

/-- When the index has come to the end of the list, the list holds the closure. -/
theorem mergeSort_eq (hn : n.SilentInside) (h : Listed n qs listed i) (hend : listed[i]? = none) :
    listed.mergeSort = n.closure qs := by
  have hclosed : ∀ q ∈ listed, ∀ t ∈ n.silent q, t ∈ listed := by
    have hall := h.handled
    rwa [List.take_of_length_le (List.getElem?_eq_none_iff.1 hend)] at hall
  have hperm := List.mergeSort_perm listed fun a b => decide (a ≤ b)
  have hle : listed.mergeSort.Pairwise fun a b => a ≤ b :=
    (List.pairwise_mergeSort (by simp; omega) (by simp; omega) listed).imp of_decide_eq_true
  have hasc : listed.mergeSort.Pairwise (· < ·) :=
    (hle.and (hperm.nodup_iff.2 h.nodup)).imp fun hab => Nat.lt_of_le_of_ne hab.1 hab.2
  refine hasc.eq_of_mem_iff (closure_ascending n qs) fun q => ?_
  rw [hperm.mem_iff, mem_closure_iff_of_silentInside hn]
  constructor
  · intro hq
    obtain ⟨s, hs, hreach⟩ := h.reached q hq
    exact ⟨s, hs, h.lt_size s (h.starts s hs), hreach⟩
  · rintro ⟨s, hs, -, hreach⟩
    exact hreach.mem_of_closed hclosed (h.starts s hs)

end Listed

/-- The loop comes to its end, as each turn goes on by one entry and no state is listed twice. -/
theorem Listed.exists_turns {n : NFA V} {qs listed : List Nat} {i : Nat} (hn : n.SilentInside)
    (h : Listed n qs listed i) (hi : i ≤ listed.length) :
    ∃ k, i + k = (n.closure qs).length ∧ Turns n k listed i (.ok (n.closure qs)) := by
  cases hq : listed[i]? with
  | none =>
      have hlen := List.getElem?_eq_none_iff.1 hq
      rw [← h.mergeSort_eq hn hq, List.length_mergeSort]
      exact ⟨0, by omega, .done hq⟩
  | some q =>
      have hlt := (List.getElem?_eq_some_iff.1 hq).1
      have hsize := h.length_le
      have hgrown := (prefix_enlist listed (n.silent q)).length_le
      have hturn := turn_of_lt (h.lt_size q (List.mem_of_getElem? hq)) listed
      obtain ⟨k, hk, hturns⟩ := exists_turns hn (h.turn hn hq) (by omega)
      exact ⟨k + 1, by omega, .turn hq hturn hturns⟩
termination_by n.size - i

/-- The turns of the loop have one end. -/
theorem Turns.unique {n : NFA V} {j k : Nat} {listed : List Nat} {i : Nat} {x y : Except Absent (List Nat)}
    (hx : Turns n j listed i x) (hy : Turns n k listed i y) : j = k ∧ x = y := by
  induction hx generalizing k with
  | done hend =>
      cases hy with
      | done =>
          exact ⟨rfl, rfl⟩
      | absent hq | turn hq =>
          rw [hend] at hq
          exact absurd hq (by simp)
  | absent hq hturn =>
      cases hy with
      | done hend =>
          rw [hend] at hq
          exact absurd hq (by simp)
      | absent hq' hturn' =>
          obtain rfl := Option.some.inj (hq.symm.trans hq')
          rw [hturn] at hturn'
          exact ⟨rfl, congrArg Except.error (Except.error.inj hturn')⟩
      | turn hq' hturn' =>
          obtain rfl := Option.some.inj (hq.symm.trans hq')
          rw [hturn] at hturn'
          exact absurd hturn' (by simp)
  | turn hq hturn _ ih =>
      cases hy with
      | done hend =>
          rw [hend] at hq
          exact absurd hq (by simp)
      | absent hq' hturn' =>
          obtain rfl := Option.some.inj (hq.symm.trans hq')
          rw [hturn] at hturn'
          exact absurd hturn' (by simp)
      | turn hq' hturn' hrest =>
          obtain rfl := Option.some.inj (hq.symm.trans hq')
          rw [hturn] at hturn'
          obtain rfl := Except.ok.inj hturn'
          obtain ⟨rfl, rfl⟩ := ih hrest
          exact ⟨rfl, rfl⟩

/-- The loop over existing states ends in one way: without a fault, with the closure, after one turn for each
of its states. -/
theorem turns_iff {n : NFA V} (hn : n.SilentInside) {qs : List Nat} (hqs : ∀ q ∈ qs, q < n.size) {k : Nat}
    {x : Except Absent (List Nat)} :
    Turns n k (enlist [] qs) 0 x ↔ k = (n.closure qs).length ∧ x = .ok (n.closure qs) := by
  obtain ⟨j, hj, hturns⟩ := (Listed.initial hqs).exists_turns hn (Nat.zero_le _)
  rw [Nat.zero_add] at hj
  subst hj
  constructor
  · intro h
    exact h.unique hturns
  · rintro ⟨rfl, rfl⟩
    exact hturns

end Listing

/-- In an automaton that was built by additions, the closure of a list of existing states is the strictly
ascending list of the states that the list reaches over silent edges that were added. The loop over a growing
list comes to it, without a fault, and in no other way. Lists that reach the same states have one closure, and
lists with one closure reach the same states; a closure is its own closure; and a larger list has a larger
closure. -/
theorem closure_exact {as : List (Addition V)} (has : AllAllowed empty as)
    (hinside : ∀ s t, .silent s t ∈ as → t < (empty.addAll as).size) {qs : List Nat}
    (hqs : ∀ q ∈ qs, q < (empty.addAll as).size) :
    let n := empty.addAll as
    (∀ k x, Listing.Turns n k (Listing.enlist [] qs) 0 x ↔
      k = (n.closure qs).length ∧ x = .ok (n.closure qs)) ∧
    (n.closure qs).Pairwise (· < ·) ∧
    (∀ q, q ∈ n.closure qs ↔ Addition.Reaches as qs q) ∧
    n.closure (n.closure qs) = n.closure qs ∧
    ∀ rs, (∀ r ∈ rs, r < n.size) →
      (n.closure qs = n.closure rs ↔ ∀ q, Addition.Reaches as qs q ↔ Addition.Reaches as rs q) ∧
      (qs ⊆ rs → n.closure qs ⊆ n.closure rs) := by
  intro n
  have hn : n.SilentInside := silentInside_addAll has hinside
  have hreaches : ∀ {ss : List Nat}, (∀ s ∈ ss, s < n.size) → ∀ q,
      (∃ s ∈ ss, s < n.size ∧ n.SilentReach s q) ↔ Addition.Reaches as ss q := by
    intro ss hss q
    refine exists_congr fun s => and_congr_right fun hs => ?_
    rw [and_iff_right (hss s hs)]
    exact silentReach_addAll_iff has
  refine ⟨fun k x => Listing.turns_iff hn hqs, closure_ascending n qs, fun q => ?_, closure_closure hn qs,
    fun rs hrs => ⟨?_, closure_mono hn⟩⟩
  · rw [mem_closure_iff_of_silentInside hn]
    exact hreaches hqs q
  · rw [closure_eq_iff hn]
    simp only [hreaches hqs, hreaches hrs]

/-- A silent cycle of three states, with one silent edge back to the cycle and one to the state itself. -/
theorem closure_exact_cycle :
    let as : List (Addition Nat) := [.state, .state, .value 7, .silent 0 3, .silent 0 1, .silent 1 2, .silent 2 0,
      .state, .silent 2 1, .silent 3 1, .silent 3 3, .edge 0 ⟨97, 97⟩ 3, .silent 0 1]
    AllAllowed empty as ∧ (∀ s t, .silent s t ∈ as → t < (empty.addAll as).size) ∧
      (∀ q ∈ [2, 2], q < (empty.addAll as).size) ∧
      (∀ q, Addition.Reaches as [2, 2] q ↔ q ∈ [0, 1, 2, 3]) ∧
      Listing.Turns (empty.addAll as) 4 (Listing.enlist [] [2, 2]) 0 (.ok [0, 1, 2, 3]) := by
  intro as
  have has : AllAllowed empty as := by
    have hzero : (empty : NFA Nat).size = 0 := rfl
    simp [as, AllAllowed, Addition.Allowed, Addition.apply, hzero]
  have hsize : (empty.addAll as).size = 4 := rfl
  have hinside : ∀ s t, .silent s t ∈ as → t < (empty.addAll as).size := by
    intro s t hst
    rw [hsize]
    simp only [as, List.mem_cons, Addition.silent.injEq, reduceCtorEq, List.not_mem_nil, false_or, or_false] at hst
    omega
  have hqs : ∀ q ∈ [2, 2], q < (empty.addAll as).size := by decide
  have hclosure : (empty.addAll as).closure [2, 2] = [0, 1, 2, 3] := by cbv
  have h := closure_exact has hinside hqs
  simp only [hclosure] at h
  exact ⟨has, hinside, hqs, fun q => (h.2.2.1 q).symm, (h.1 4 _).2 ⟨rfl, rfl⟩⟩

end NFA

end MaximalMunch
