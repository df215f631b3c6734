import MaximalMunch.Proofs.SizeCheck

/-!
# How far repetitions are unrolled

A repetition is lowered copy by copy, and the size of a pattern is checked before this begins. The check counts
states, so it limits the copies of a child that needs a state: there are no more of them than states. A child
without states may have any number of copies, each of which leaves the automaton as it is.

- `Tree.lower_of_size_eq_zero`       : lowering a tree without states does nothing
- `Compiler.copies_mul_size_lt_of_fits` : the states of all copies have room in the automaton
- `Compiler.copies_le_or_idle`       : how many copies a pattern that is added asks for
- `Compiler.copies_exceed_limit`     : more copies than the automaton may have states
-/

namespace MaximalMunch

namespace Tree

variable {V : Type} {t u : Tree} {ts : List Tree}

theorem size_pos_of_ne_sequence (h : ∀ ts, t ≠ .sequence ts) : 0 < t.size := by
  cases t with
  | characters =>
      exact Nat.one_pos
  | sequence ts =>
      exact absurd rfl (h ts)
  | choice ts =>
      exact Nat.succ_pos _
  | repetition t min max =>
      exact Nat.lt_of_le_of_lt (Nat.zero_le _) (copies_mul_size_lt t min max)

theorem lowerSequence_of_sizeSum_eq_zero
    (hts : ∀ t ∈ ts, t.size = 0 → ∀ (n : NFA V) (s : Nat), t.lower n s = (n, s)) (h : sizeSum ts = 0)
    (n : NFA V) (s : Nat) : lowerSequence ts n s = (n, s) := by
  induction ts with
  | nil =>
      rfl
  | cons t ts ih =>
      rw [sizeSum] at h
      have hfirst : t.lower n s = (n, s) := hts t (by simp) (Nat.eq_zero_of_add_eq_zero_right h) n s
      rw [lowerSequence, hfirst]
      exact ih (fun u hu => hts u (by simp [hu])) (Nat.eq_zero_of_add_eq_zero_left h)

/-- A tree without states is made of empty sequences, so lowering it adds nothing and stays where it is. -/
theorem lower_of_size_eq_zero (h : t.size = 0) (n : NFA V) (s : Nat) : t.lower n s = (n, s) := by
  induction Forall.of_forall (P := fun _ => True) (fun _ => trivial) t generalizing n s with
  | characters =>
      exact absurd h Nat.one_ne_zero
  | sequence _ _ ih =>
      rw [size] at h
      rw [lower]
      exact lowerSequence_of_sizeSum_eq_zero ih h n s
  | choice =>
      exact absurd h (Nat.succ_ne_zero _)
  | @repetition t min max =>
      exact absurd h (Nat.ne_of_gt (size_pos_of_ne_sequence (by simp)))

end Tree

namespace Compiler

variable {V : Type} {c c' : Compiler V}

/-- The states of all copies of a child have room in an automaton to which the tree can be added. -/
theorem copies_mul_size_lt_of_fits {t u : Tree} {min : Nat} {max : Option Nat} (hfits : c.fits t = true)
    (hu : (Tree.repetition u min max).LoweredIn t) : Tree.copies min max * u.size < 2 ^ 20 := by
  have hroom : c.automaton.size + t.size + 2 ≤ 2 ^ 20 := (fits_iff.1 hfits).1
  calc
    Tree.copies min max * u.size < (Tree.repetition u min max).size := Tree.copies_mul_size_lt u min max
    _ ≤ t.size := hu.size_le
    _ ≤ 2 ^ 20 := by omega

/-- In a pattern that is added, each repetition that lowering comes to asks for no more copies of its child than
the automaton may have states, unless the child has no states at all. All copies together take fewer states
than this. A copy of a child without states leaves the automaton as it is, and ends where it begins. -/
theorem copies_le_or_idle {text : String} {value : V} (h : c.add text value = (c', none)) :
    ∃ t, c.dialect.parse text = .ok t ∧
      ∀ (u : Tree) (min : Nat) (max : Option Nat), (Tree.repetition u min max).LoweredIn t →
        Tree.copies min max * u.size < 2 ^ 20 ∧
        (0 < u.size → Tree.copies min max ≤ 2 ^ 20) ∧
        (u.size = 0 → ∀ (n : NFA V) (s : Nat), u.lower n s = (n, s)) := by
  rcases exists_insert_of_add h with ⟨t, ht, hfits, -⟩
  refine ⟨t, ht, fun u min max hu => ?_⟩
  have hstates : Tree.copies min max * u.size < 2 ^ 20 := copies_mul_size_lt_of_fits hfits hu
  refine ⟨hstates, fun hpos => ?_, fun hzero n s => Tree.lower_of_size_eq_zero hzero n s⟩
  calc
    Tree.copies min max ≤ Tree.copies min max * u.size := Nat.le_mul_of_pos_right _ hpos
    _ ≤ 2 ^ 20 := Nat.le_of_lt hstates

/-- A repetition without a limit, and in it one whose child has no states. -/
theorem copies_le_or_idle_nested :
    let u : Tree := .repetition (.sequence []) 9 (some 9)
    let v : Tree := .sequence [.char 'a', u]
    ∃ c', (new .regex : Compiler Nat).add "(a(){9}){3,}" 1 = (c', none) ∧
      Dialect.regex.parse "(a(){9}){3,}" = .ok (.repetition v 3 none) ∧
      Tree.copies 3 none = 4 ∧ 4 * v.size < 2 ^ 20 ∧ 4 ≤ 2 ^ 20 ∧
      u.LoweredIn (.repetition v 3 none) ∧
      ∀ (n : NFA Nat) (s : Nat), (Tree.sequence []).lower n s = (n, s) := by
  intro u v
  have hparse : Dialect.regex.parse "(a(){9}){3,}" = .ok (.repetition v 3 none) := by
    rw [Dialect.parse, Dialect.tokens_eq_reading]
    with_unfolding_all rfl
  have hfits : (new .regex : Compiler Nat).fits (.repetition v 3 none) = true := by
    simp [fits, u, v, Tree.size?, Tree.sizeFrom?, Tree.char, Word.mul?, Word.add?, Word.ofNat?, Word.limit,
      maxStates]
  have hadd := add_eq_ok (c := new .regex) hparse hfits 1
  have hu : u.LoweredIn (.repetition v 3 none) := .repetition (by simp) (.sequence (by simp) .self)
  rcases copies_le_or_idle hadd with ⟨t, ht, hcopies⟩
  obtain rfl := Except.ok.inj (ht.symm.trans hparse)
  have hv := hcopies v 3 none .self
  have hidle := hcopies (.sequence []) 9 (some 9) hu
  exact ⟨_, hadd, hparse, rfl, hv.1, hv.2.1 (by decide), hu, hidle.2.2 rfl⟩

/-- A pattern that is added although one of its repetitions asks for more copies than the automaton may have
states. -/
theorem copies_exceed_limit :
    ∃ t c', Dialect.regex.parse "(){1048577}" = .ok t ∧
      (new .regex : Compiler Nat).add "(){1048577}" 1 = (c', none) ∧
      (Tree.repetition (.sequence []) 1048577 (some 1048577)).LoweredIn t ∧
      2 ^ 20 < Tree.copies 1048577 (some 1048577) := by
  have hparse : Dialect.regex.parse "(){1048577}" =
      .ok (.repetition (.sequence []) 1048577 (some 1048577)) := by
    rw [Dialect.parse, Dialect.tokens_eq_reading]
    with_unfolding_all rfl
  have hfits : (new .regex : Compiler Nat).fits (.repetition (.sequence []) 1048577 (some 1048577)) = true := by
    simp [fits, Tree.size?, Tree.sizeFrom?, Word.mul?, Word.add?, Word.ofNat?, Word.limit, maxStates]
  exact ⟨_, _, hparse, add_eq_ok (c := new .regex) hparse hfits 1, .self, by decide⟩

end Compiler

end MaximalMunch
