import MaximalMunch.Proofs.Frame
import MaximalMunch.Proofs.SizeLimit

/-!
# When the size check refuses a pattern

The size of a tree is computed in words, and a pattern is refused if some intermediate result does not fit. Each
such result is at most the size of a part of the tree, and lowering a part takes no more states than lowering the
whole. The parts of a repetition without any copy are the exception: they are never lowered, but their sizes are
computed all the same.

- `Tree.PartOf`                   : a part of a tree
- `Tree.LoweredIn`                : a part that lowering comes to
- `Tree.SkippedIn`                : a part inside of a repetition without copies
- `Tree.size?_eq_some_iff`        : the size is computed if the size of each part fits a word
- `Tree.size?_eq_none_iff`        : what goes wrong if it is not
- `Compiler.tooLarge_iff`         : which patterns are refused, and which are added
- `Compiler.refuses_small_pattern` : a pattern that is refused although it needs one state only
-/

namespace MaximalMunch

namespace Word

theorem add?_eq_some {m n : Nat} (h : m + n < limit) : add? m n = some (m + n) :=
  add?_eq_some_iff.2 ⟨h, rfl⟩

theorem mul?_eq_some {m n : Nat} (h : m * n < limit) : mul? m n = some (m * n) :=
  mul?_eq_some_iff.2 ⟨h, rfl⟩

theorem lt_of_add? {m n k : Nat} (h : add? m n = some k) : k < limit := by
  rw [(add?_eq_some_iff.1 h).2]
  exact (add?_eq_some_iff.1 h).1

end Word

namespace Tree

/-! ## Parts of a tree -/

/-- `u.PartOf t`: the tree `u` is `t` or stands somewhere inside it. -/
inductive PartOf (u : Tree) : Tree → Prop where
  | self : PartOf u u
  | sequence {ts : List Tree} {t : Tree} : t ∈ ts → PartOf u t → PartOf u (.sequence ts)
  | choice {ts : List Tree} {t : Tree} : t ∈ ts → PartOf u t → PartOf u (.choice ts)
  | repetition {t : Tree} {min : Nat} {max : Option Nat} :
      PartOf u t → PartOf u (.repetition t min max)

/-- `u.LoweredIn t`: lowering `t` comes to the part `u`, since each repetition around it has a copy. -/
inductive LoweredIn (u : Tree) : Tree → Prop where
  | self : LoweredIn u u
  | sequence {ts : List Tree} {t : Tree} : t ∈ ts → LoweredIn u t → LoweredIn u (.sequence ts)
  | choice {ts : List Tree} {t : Tree} : t ∈ ts → LoweredIn u t → LoweredIn u (.choice ts)
  | repetition {t : Tree} {min : Nat} {max : Option Nat} :
      max ≠ some 0 → LoweredIn u t → LoweredIn u (.repetition t min max)

/-- `u.SkippedIn t`: some repetition inside of `t` has `u` inside it, but no copy of it. -/
inductive SkippedIn (u : Tree) : Tree → Prop where
  | skipped {t : Tree} {min : Nat} : PartOf u t → SkippedIn u (.repetition t min (some 0))
  | sequence {ts : List Tree} {t : Tree} : t ∈ ts → SkippedIn u t → SkippedIn u (.sequence ts)
  | choice {ts : List Tree} {t : Tree} : t ∈ ts → SkippedIn u t → SkippedIn u (.choice ts)
  | repetition {t : Tree} {min : Nat} {max : Option Nat} :
      SkippedIn u t → SkippedIn u (.repetition t min max)

variable {t u : Tree} {ts : List Tree} {P : Tree → Prop}

theorem Forall.of_partOf (h : t.Forall P) (hu : u.PartOf t) : P u := by
  induction hu with
  | self =>
      cases h with
      | characters h | sequence h | choice h | repetition h => exact h
  | sequence hmem _ ih =>
      cases h with
      | sequence _ hts => exact ih (hts _ hmem)
  | choice hmem _ ih =>
      cases h with
      | choice _ hts => exact ih (hts _ hmem)
  | repetition _ ih =>
      cases h with
      | repetition _ ht => exact ih ht

/-- All nodes of a tree have a property if all its parts have it. -/
theorem forall_iff_partOf : t.Forall P ↔ ∀ u, u.PartOf t → P u := by
  constructor
  · intro h u hu
    exact h.of_partOf hu
  · intro h
    induction Forall.of_forall (P := fun _ => True) (fun _ => trivial) t with
    | characters =>
        exact .characters (h _ .self)
    | sequence _ _ ih =>
        exact .sequence (h _ .self) fun t ht => ih t ht fun u hu => h u (.sequence ht hu)
    | choice _ _ ih =>
        exact .choice (h _ .self) fun t ht => ih t ht fun u hu => h u (.choice ht hu)
    | repetition _ _ ih =>
        exact .repetition (h _ .self) (ih fun u hu => h u (.repetition hu))

theorem LoweredIn.partOf (h : u.LoweredIn t) : u.PartOf t := by
  induction h with
  | self => exact .self
  | sequence hmem _ ih => exact .sequence hmem ih
  | choice hmem _ ih => exact .choice hmem ih
  | repetition _ _ ih => exact .repetition ih

theorem SkippedIn.partOf (h : u.SkippedIn t) : u.PartOf t := by
  induction h with
  | skipped hu => exact .repetition hu
  | sequence hmem _ ih => exact .sequence hmem ih
  | choice hmem _ ih => exact .choice hmem ih
  | repetition _ ih => exact .repetition ih

/-- Lowering comes to a part unless it skips it. -/
theorem partOf_iff : u.PartOf t ↔ u.LoweredIn t ∨ u.SkippedIn t := by
  constructor
  · intro h
    induction h with
    | self =>
        exact Or.inl .self
    | sequence hmem _ ih =>
        exact ih.imp (.sequence hmem) (.sequence hmem)
    | choice hmem _ ih =>
        exact ih.imp (.choice hmem) (.choice hmem)
    | @repetition t min max hpart ih =>
        by_cases hmax : max = some 0
        · rw [hmax]
          exact Or.inr (.skipped hpart)
        · exact ih.imp (.repetition hmax) .repetition
  · rintro (h | h)
    · exact h.partOf
    · exact h.partOf

/-! ## Sizes of parts -/

theorem size_le_sizeSum (h : t ∈ ts) : t.size ≤ sizeSum ts := by
  induction ts with
  | nil =>
      exact absurd h (by simp)
  | cons u us ih =>
      rw [sizeSum]
      rcases List.mem_cons.1 h with rfl | h
      · exact Nat.le_add_right _ _
      · exact Nat.le_trans (ih h) (Nat.le_add_left _ _)

/-- How many copies of its child a repetition with these bounds is lowered to. -/
def copies (min : Nat) (max : Option Nat) : Nat := max.getD (min + 1)

theorem copies_pos {min : Nat} {max : Option Nat} (h : max ≠ some 0) : 0 < copies min max := by
  cases max with
  | none => exact Nat.succ_pos min
  | some max => exact Nat.pos_of_ne_zero fun hmax => h (congrArg some hmax)

/-- Each copy of a repetition takes the states of the child, and the common end takes one more. -/
theorem copies_mul_size_lt (t : Tree) (min : Nat) (max : Option Nat) :
    copies min max * t.size < (repetition t min max).size := by
  cases max with
  | none =>
      calc
        copies min none * t.size = min * t.size + t.size := Nat.succ_mul min t.size
        _ < (repetition t min none).size := by rw [size]; omega
  | some max =>
      rw [size]
      exact Nat.lt_succ_self _

/-- A part that lowering comes to is no larger than the tree. -/
theorem LoweredIn.size_le (h : u.LoweredIn t) : u.size ≤ t.size := by
  induction h with
  | self =>
      exact Nat.le_refl _
  | sequence hmem _ ih =>
      rw [size]
      exact Nat.le_trans ih (size_le_sizeSum hmem)
  | choice hmem _ ih =>
      rw [size]
      exact Nat.le_succ_of_le (Nat.le_trans ih (size_le_sizeSum hmem))
  | @repetition t min max hmax _ ih =>
      calc
        u.size ≤ t.size := ih
        _ ≤ copies min max * t.size := Nat.le_mul_of_pos_left _ (copies_pos hmax)
        _ ≤ (Tree.repetition t min max).size := Nat.le_of_lt (copies_mul_size_lt t min max)

/-! ## Computed sizes -/

/-- The size of the tree fits a word. -/
def FitsWord (t : Tree) : Prop := t.size < Word.limit

theorem sizeFrom?_eq_some {sum : Nat} (hts : ∀ t ∈ ts, t.size? = some t.size)
    (hlt : sum + sizeSum ts < Word.limit) : sizeFrom? sum ts = some (sum + sizeSum ts) := by
  induction ts generalizing sum with
  | nil =>
      rfl
  | cons t ts ih =>
      rw [sizeSum, ← Nat.add_assoc] at hlt ⊢
      have hsum : sum + t.size < Word.limit := Nat.lt_of_le_of_lt (Nat.le_add_right _ _) hlt
      simp only [sizeFrom?, hts t (by simp), Word.add?_eq_some hsum]
      exact ih (fun u hu => hts u (by simp [hu])) hlt

/-- If all parts fit a word, so do all results on the way. -/
theorem size?_of_forall (h : t.Forall FitsWord) : t.size? = some t.size := by
  induction h with
  | characters =>
      rfl
  | @sequence ts hfits _ ih =>
      have hlt : 0 + sizeSum ts < Word.limit := by
        rw [Nat.zero_add]
        exact hfits
      rw [size?, size, sizeFrom?_eq_some ih hlt, Nat.zero_add]
  | @choice ts hfits _ ih =>
      have hlt : 1 + sizeSum ts < Word.limit := by
        rw [Nat.add_comm]
        exact hfits
      rw [size?, size, sizeFrom?_eq_some ih hlt, Nat.add_comm]
  | @repetition t min max hfits _ ih =>
      cases max with
      | some max =>
          have hsum : max * t.size + 1 < Word.limit := hfits
          have hmul : max * t.size < Word.limit := by omega
          simp only [size?, ih, size, Word.mul?_eq_some hmul, Option.bind_some,
            Word.add?_eq_some hsum]
      | none =>
          have hend : min * t.size + t.size + 1 + 1 < Word.limit := hfits
          have hmul : min * t.size < Word.limit := by omega
          have hloop : min * t.size + t.size < Word.limit := by omega
          have hentry : min * t.size + t.size + 1 < Word.limit := by omega
          simp only [size?, ih, size, Word.mul?_eq_some hmul, Option.bind_some,
            Word.add?_eq_some hloop, Word.add?_eq_some hentry, Word.add?_eq_some hend]

/-- A sum that is computed fits a word, and the sizes in it are computed as well. -/
theorem of_sizeFrom?_eq_some {sum k : Nat} (hsum : sum < Word.limit) (h : sizeFrom? sum ts = some k) :
    k < Word.limit ∧ ∀ t ∈ ts, ∃ n, t.size? = some n := by
  induction ts generalizing sum with
  | nil =>
      obtain rfl := Option.some.inj h
      exact ⟨hsum, by simp⟩
  | cons t ts ih =>
      rw [sizeFrom?] at h
      split at h
      · exact absurd h (by simp)
      · rename_i n hn
        split at h
        · exact absurd h (by simp)
        · rename_i sum' hsum'
          rcases ih (Word.lt_of_add? hsum') h with ⟨hk, hts⟩
          exact ⟨hk, List.forall_mem_cons.2 ⟨⟨n, hn⟩, hts⟩⟩

/-- A size that is computed fits a word. -/
theorem fitsWord_of_size? {k : Nat} (h : t.size? = some k) : t.FitsWord := by
  rw [FitsWord, size_of_size? h]
  cases t with
  | characters =>
      obtain rfl := Option.some.inj h
      decide
  | sequence ts | choice ts =>
      exact (of_sizeFrom?_eq_some (by decide) h).1
  | repetition t min max =>
      cases max with
      | some max | none =>
          rw [size?] at h
          split at h
          · exact absurd h (by simp)
          · rcases Option.bind_eq_some_iff.1 h with ⟨a, -, hk⟩
            exact Word.lt_of_add? hk

/-- The sizes of all parts are computed on the way, those of skipped parts as well. -/
theorem PartOf.exists_size? {k : Nat} (hu : u.PartOf t) (h : t.size? = some k) : ∃ n, u.size? = some n := by
  induction hu generalizing k with
  | self =>
      exact ⟨k, h⟩
  | sequence hmem _ ih | choice hmem _ ih =>
      rcases (of_sizeFrom?_eq_some (by decide) h).2 _ hmem with ⟨n, hn⟩
      exact ih hn
  | @repetition t min max _ ih =>
      cases max with
      | some max | none =>
          rw [size?] at h
          split at h
          · exact absurd h (by simp)
          · rename_i n hn
            exact ih hn

/-- The size of a tree can be computed if and only if the size of each part fits a word. -/
theorem size?_eq_some_iff {k : Nat} :
    t.size? = some k ↔ k = t.size ∧ ∀ u : Tree, u.PartOf t → u.FitsWord := by
  constructor
  · intro h
    refine ⟨(size_of_size? h).symm, fun u hu => ?_⟩
    rcases hu.exists_size? h with ⟨n, hn⟩
    exact fitsWord_of_size? hn
  · rintro ⟨rfl, h⟩
    exact size?_of_forall (forall_iff_partOf.2 h)

/-- A skipped part whose size does not fit a word. It would need no state, but its size is computed. -/
def HidesOverflow (t : Tree) : Prop := ∃ u : Tree, u.SkippedIn t ∧ 2 ^ 64 ≤ u.size

/-- All parts fit a word if the tree does, unless one is hidden that does not. -/
theorem forall_fitsWord_iff : (∀ u : Tree, u.PartOf t → u.FitsWord) ↔ t.FitsWord ∧ ¬ t.HidesOverflow := by
  constructor
  · intro h
    refine ⟨h t .self, ?_⟩
    rintro ⟨u, hu, hle⟩
    exact Nat.not_lt.2 hle (h u hu.partOf)
  · rintro ⟨ht, hnot⟩ u hu
    rcases partOf_iff.1 hu with hlowered | hskipped
    · exact Nat.lt_of_le_of_lt hlowered.size_le ht
    · exact Nat.lt_of_not_le fun hle => hnot ⟨u, hskipped, hle⟩

/-- The size of a tree cannot be computed if and only if it does not fit a word, or that of a skipped part does
not. -/
theorem size?_eq_none_iff : t.size? = none ↔ 2 ^ 64 ≤ t.size ∨ t.HidesOverflow := by
  have hsome : t.size? = some t.size ↔ t.FitsWord ∧ ¬ t.HidesOverflow := by
    rw [size?_eq_some_iff, forall_fitsWord_iff, and_iff_right rfl]
  have hnone : t.size? = none ↔ t.size? ≠ some t.size := by
    constructor
    · intro h
      simp [h]
    · intro h
      exact Option.eq_none_iff_forall_ne_some.2 fun k hk => h (by rw [hk, size_of_size? hk])
  have hfits : ¬ t.FitsWord ↔ 2 ^ 64 ≤ t.size := Nat.not_lt
  rw [hnone, Ne, hsome, not_and_or, not_not, hfits]

end Tree

namespace Compiler

variable {V : Type} {c : Compiler V}

/-- A tree fits if the automaton has no more than `2 ^ 20` states with it, and no skipped part hides an overflow. -/
theorem fits_iff {t : Tree} :
    c.fits t = true ↔ c.automaton.size + t.size + 2 ≤ 2 ^ 20 ∧ ¬ t.HidesOverflow := by
  have hmax : maxStates = 2 ^ 20 := by simp [maxStates]
  constructor
  · intro h
    rcases exists_size?_of_fits h with ⟨k, hk, hle⟩
    have hparts := Tree.size?_eq_some_iff.1 hk
    rw [← hparts.1, ← hmax]
    exact ⟨hle, (Tree.forall_fitsWord_iff.1 hparts.2).2⟩
  · rintro ⟨hle, hnot⟩
    have hlimit : Word.limit = 2 ^ 64 := rfl
    have hword : t.FitsWord := by
      rw [Tree.FitsWord]
      omega
    have hsize : t.size? = some t.size :=
      Tree.size?_eq_some_iff.2 ⟨rfl, Tree.forall_fitsWord_iff.2 ⟨hword, hnot⟩⟩
    have htotal : t.size + (c.automaton.size + 2) < Word.limit := by omega
    simp only [fits, hsize, Option.bind_some, Word.add?_eq_some htotal, decide_eq_true_eq]
    omega

/-- A pattern is refused for its size if it can be read and its tree does not fit. -/
theorem add_eq_tooLarge_iff {text : String} {value : V} :
    (c.add text value).2 = some (.tooLarge maxStates) ↔
      ∃ t, c.dialect.parse text = .ok t ∧ ¬ c.fits t = true := by
  unfold add
  split
  · rename_i e he
    simp [he]
  · rename_i t ht
    split <;> rename_i hfits <;> simp [ht, hfits]

theorem add_eq_ok_iff {text : String} {value : V} {c' : Compiler V} :
    c.add text value = (c', none) ↔
      ∃ t, c.dialect.parse text = .ok t ∧ c.fits t = true ∧ c.insert t value = c' := by
  constructor
  · exact exists_insert_of_add
  · rintro ⟨t, ht, hfits, rfl⟩
    exact add_eq_ok ht hfits value

/-- A pattern fits if the automaton with it has no more than `2 ^ 20` states and nothing overflows out of sight. -/
theorem fits_iff_of_parse {text : String} {t : Tree} (ht : c.dialect.parse text = .ok t) (value : V) :
    c.fits t = true ↔ ¬ (2 ^ 20 < (c.insert t value).automaton.size ∨ t.HidesOverflow) := by
  rw [fits_iff, size_insert (Dialect.parse_sound ht).ordered, not_or, Nat.not_lt]

/-- A pattern is refused for its size if and only if the automaton would have more than `2 ^ 20` states with it, or
a part of it that is never lowered has a size of `2 ^ 64` or more. Every other pattern that can be read is added,
and one that is refused leaves the compiler as it was. The size of a tree cannot be computed if it is `2 ^ 64` or
more, or if the tree has such a part. -/
theorem tooLarge_iff (c : Compiler V) (text : String) (value : V) :
    ((c.add text value).2 = some (.tooLarge maxStates) ↔
      ∃ t, c.dialect.parse text = .ok t ∧
        (2 ^ 20 < (c.insert t value).automaton.size ∨ t.HidesOverflow)) ∧
    (∀ c', c.add text value = (c', none) ↔
      ∃ t, c.dialect.parse text = .ok t ∧
        ¬ (2 ^ 20 < (c.insert t value).automaton.size ∨ t.HidesOverflow) ∧ c.insert t value = c') ∧
    (∀ e, (c.add text value).2 = some e → (c.add text value).1 = c) ∧
    ∀ t : Tree, t.size? = none ↔ 2 ^ 64 ≤ t.size ∨ t.HidesOverflow := by
  refine ⟨?_, fun c' => ?_, fun e he => fst_add_of_error he, fun t => Tree.size?_eq_none_iff⟩
  · rw [add_eq_tooLarge_iff]
    refine exists_congr fun t => and_congr_right fun ht => ?_
    rw [fits_iff_of_parse ht value, not_not]
  · rw [add_eq_ok_iff]
    refine exists_congr fun t => and_congr_right fun ht => and_congr_left fun _ => ?_
    rw [fits_iff_of_parse ht value]

/-- A pattern that needs one state is refused, since the size of its part without copies does not fit a word. -/
theorem refuses_small_pattern :
    let t : Tree := .repetition (.repetition (.char 'a') (2 ^ 64 - 1) (some (2 ^ 64 - 1))) 0 (some 0)
    Dialect.regex.parse "(a{18446744073709551615}){0}" = .ok t ∧ t.size = 1 ∧ t.size? = none ∧
      ((new .regex : Compiler Nat).insert t 1).automaton.size = 4 ∧
      (new .regex : Compiler Nat).add "(a{18446744073709551615}){0}" 1 = (new .regex, some (.tooLarge maxStates)) := by
  intro t
  have hparse : Dialect.regex.parse "(a{18446744073709551615}){0}" = .ok t := by
    rw [Dialect.parse, Dialect.tokens_eq_reading]
    with_unfolding_all rfl
  have hsize : t.size = 1 := by
    rw [Tree.size, Nat.zero_mul]
  have hnone : t.size? = none := by
    simp [t, Tree.size?, Tree.char, Word.mul?, Word.add?, Word.ofNat?, Word.limit]
  refine ⟨hparse, hsize, hnone, ?_, ?_⟩
  · rw [size_insert (Dialect.parse_sound hparse).ordered, hsize, size_new]
  · have hfits : ¬ (new .regex : Compiler Nat).fits t = true := by
      simp [fits, hnone]
    have hrefused : ((new .regex : Compiler Nat).add _ 1).2 = some (.tooLarge maxStates) :=
      add_eq_tooLarge_iff.2 ⟨t, hparse, hfits⟩
    exact Prod.ext (fst_add_of_error hrefused) hrefused

end Compiler

end MaximalMunch
