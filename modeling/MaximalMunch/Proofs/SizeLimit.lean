import Mathlib.Algebra.Group.Nat.Defs
import MaximalMunch.Proofs.Registration

/-!
# The size of a compiler

The number of states that a tree adds is known before it is lowered, so a pattern that would make the
automaton too large is refused in time. A value for the end of the text is added without this check.

- `Tree.size_lower`           : lowering adds as many states as the tree has
- `Tree.size_of_size?`        : the size that is computed in words is the size
- `Compiler.size_insert`      : a pattern adds its tree, an entry and an accepting state
- `Compiler.size_predicted`   : so a pattern adds as many states as were computed for it
- `Compiler.size_le_of_add`   : no pattern makes the automaton too large
- `Compiler.size_within_iff`  : when the limit holds all the time
-/

namespace MaximalMunch

namespace Word

theorem add?_eq_some_iff {m n k : Nat} : add? m n = some k ↔ m + n < limit ∧ k = m + n :=
  ofNat?_eq_some_iff

theorem mul?_eq_some_iff {m n k : Nat} : mul? m n = some k ↔ m * n < limit ∧ k = m * n :=
  ofNat?_eq_some_iff

end Word

namespace Tree

open MaximalMunch.NFA

variable {V : Type}

/-! ## Lowering adds the states of the tree -/

/-- Lowering the tree adds its states to any automaton. -/
def Adds (V : Type) (t : Tree) : Prop :=
  ∀ (n : NFA V) (s : Nat), (t.lower n s).1.size = n.size + t.size

theorem size_lowerSequence {ts : List Tree} (h : ∀ t ∈ ts, t.Adds V) (n : NFA V) (s : Nat) :
    (lowerSequence ts n s).1.size = n.size + sizeSum ts := by
  induction ts generalizing n s with
  | nil =>
      rfl
  | cons t ts ih =>
      calc
        (lowerSequence (t :: ts) n s).1.size = (t.lower n s).1.size + sizeSum ts :=
          ih (fun u hu => h u (by simp [hu])) _ _
        _ = n.size + t.size + sizeSum ts := by rw [h t (by simp)]
        _ = n.size + sizeSum (t :: ts) := by rw [sizeSum, Nat.add_assoc]

theorem size_lowerChoice {ts : List Tree} (h : ∀ t ∈ ts, t.Adds V) (n : NFA V) (s next : Nat) :
    (lowerChoice ts n s next).size = n.size + sizeSum ts := by
  induction ts generalizing n with
  | nil =>
      rfl
  | cons t ts ih =>
      calc
        (lowerChoice (t :: ts) n s next).size =
            ((t.lower n s).1.addSilent (t.lower n s).2 next).size + sizeSum ts :=
          ih (fun u hu => h u (by simp [hu])) _
        _ = n.size + t.size + sizeSum ts := by rw [size_addSilent, h t (by simp)]
        _ = n.size + sizeSum (t :: ts) := by rw [sizeSum, Nat.add_assoc]

theorem size_repeat {step : NFA V × Nat → NFA V × Nat} {a : Nat}
    (h : ∀ r, (step r).1.size = r.1.size + a) (k : Nat) (r : NFA V × Nat) :
    (Nat.repeat step k r).1.size = r.1.size + k * a := by
  induction k with
  | zero =>
      simp [Nat.repeat]
  | succ k ih =>
      calc
        (Nat.repeat step (k + 1) r).1.size = (Nat.repeat step k r).1.size + a := h _
        _ = r.1.size + (k + 1) * a := by rw [ih, Nat.succ_mul, Nat.add_assoc]

theorem size_lower {t : Tree} (ht : t.Ordered) : t.Adds V := by
  induction ht with
  | characters =>
      intro n s
      rw [lower]
      simp [size]
  | sequence _ _ ih =>
      intro n s
      rw [lower, size]
      exact size_lowerSequence ih n s
  | @choice ts _ _ ih =>
      intro n s
      rw [lower, size]
      simp only [size_lowerChoice ih, size_addEmpty]
      omega
  | @repetition t min max hbounds _ ih =>
      intro n s
      have hreq := size_repeat (fun r : NFA V × Nat => ih r.1 r.2) min (n, s)
      cases max with
      | some max =>
          have hle : min ≤ max := hbounds
          have hcopy : ∀ (next : Nat) (r : NFA V × Nat), (copyTo t next r).1.size = r.1.size + t.size := by
            intro next r
            simp only [copyTo, size_addSilent]
            exact ih r.1 r.2
          -- The required copies and the optional ones are `max` copies together.
          have hsum : min * t.size + (max - min) * t.size = max * t.size := by
            rw [← Nat.add_mul, Nat.add_sub_cancel' hle]
          rw [lower_bounded, size]
          simp only [size_repeat (hcopy _), size_addSilent, size_addEmpty, hreq]
          omega
      | none =>
          rw [lower_unbounded, size]
          simp only [size_addSilent]
          rw [ih]
          simp only [size_withEntry, hreq]
          omega

/-! ## The size in words -/

open Word (add?_eq_some_iff mul?_eq_some_iff)

mutual

/-- What is computed in words is the size. -/
theorem size_of_size? {t : Tree} {k : Nat} (h : t.size? = some k) : t.size = k := by
  match t with
  | .characters _ =>
      exact Option.some.inj h
  | .sequence ts =>
      rw [size?] at h
      rw [size, ← sizeFrom_of_sizeFrom? h, Nat.zero_add]
  | .choice ts =>
      rw [size?] at h
      rw [size, ← sizeFrom_of_sizeFrom? h, Nat.add_comm]
  | .repetition t min (some max) =>
      rw [size?] at h
      split at h
      · exact absurd h (by simp)
      · rename_i n hn
        obtain ⟨a, ha, hk⟩ := Option.bind_eq_some_iff.1 h
        rw [size, size_of_size? hn, (add?_eq_some_iff.1 hk).2, (mul?_eq_some_iff.1 ha).2]
  | .repetition t min none =>
      rw [size?] at h
      split at h
      · exact absurd h (by simp)
      · rename_i n hn
        obtain ⟨c, hc, hk⟩ := Option.bind_eq_some_iff.1 h
        obtain ⟨b, hb, hc⟩ := Option.bind_eq_some_iff.1 hc
        obtain ⟨a, ha, hb⟩ := Option.bind_eq_some_iff.1 hb
        rw [size, size_of_size? hn, (add?_eq_some_iff.1 hk).2, (add?_eq_some_iff.1 hc).2,
          (add?_eq_some_iff.1 hb).2, (mul?_eq_some_iff.1 ha).2]

theorem sizeFrom_of_sizeFrom? {ts : List Tree} {sum k : Nat} (h : sizeFrom? sum ts = some k) :
    sum + sizeSum ts = k := by
  match ts with
  | [] =>
      exact Option.some.inj h
  | t :: ts =>
      rw [sizeFrom?] at h
      split at h
      · exact absurd h (by simp)
      · rename_i n hn
        split at h
        · exact absurd h (by simp)
        · rename_i sum' hsum
          rw [sizeSum, size_of_size? hn, ← Nat.add_assoc, ← (add?_eq_some_iff.1 hsum).2]
          exact sizeFrom_of_sizeFrom? h

end

end Tree

namespace Compiler

variable {V : Type} {d : Dialect} {c c' : Compiler V}

@[simp] theorem size_new : (new d : Compiler V).automaton.size = 1 := NFA.size_addEmpty _

theorem size_new_le : (new d : Compiler V).automaton.size ≤ maxStates := by
  simp [maxStates]

/-- A tree that fits has a size in words, with room for an entry and an accepting state. -/
theorem exists_size?_of_fits {t : Tree} (h : c.fits t = true) :
    ∃ k, t.size? = some k ∧ c.automaton.size + k + 2 ≤ maxStates := by
  unfold fits at h
  split at h
  · rename_i total htotal
    obtain ⟨k, hk, hsum⟩ := Option.bind_eq_some_iff.1 htotal
    have hle : total ≤ maxStates := by simpa using h
    rw [(Word.add?_eq_some_iff.1 hsum).2] at hle
    exact ⟨k, hk, by omega⟩
  · exact absurd h (by simp)

theorem size_le_of_fits {t : Tree} (h : c.fits t = true) :
    c.automaton.size + t.size + 2 ≤ maxStates := by
  obtain ⟨k, hk, hle⟩ := exists_size?_of_fits h
  rw [Tree.size_of_size? hk]
  exact hle

theorem size_insert {t : Tree} (ht : t.Ordered) (value : V) :
    (c.insert t value).automaton.size = c.automaton.size + t.size + 2 := by
  have hlower := Tree.size_lower (V := V) ht (c.automaton.addEmpty.addSilent start c.automaton.size)
    c.automaton.size
  simp only [NFA.size_addSilent, NFA.size_addEmpty] at hlower
  simp only [insert, NFA.size_addSilent, NFA.size_addValue, hlower]
  omega

@[simp] theorem size_addEndOfText (value : V) :
    (c.addEndOfText value).automaton.size = c.automaton.size + 1 := by
  simp [addEndOfText]

/-- A pattern that is added leaves the automaton within the limit, however large it was. -/
theorem size_le_of_add {text : String} {value : V} (h : c.add text value = (c', none)) :
    c'.automaton.size ≤ maxStates := by
  obtain ⟨t, ht, hfits, rfl⟩ := exists_insert_of_add h
  rw [size_insert (Dialect.parse_sound ht).ordered]
  exact size_le_of_fits hfits

/-- If the size of a tree can be computed in words, lowering adds just as many states, to any automaton and
behind any state. A pattern that is added has such a tree; the automaton grows by its size, an entry and an
accepting state, and has no more than `2 ^ 20` states then. -/
theorem size_predicted :
    (∀ (t : Tree) (k : Nat), t.Ordered → t.size? = some k →
      ∀ (n : NFA V) (s : Nat), (t.lower n s).1.size = n.size + k) ∧
    ∀ (c c' : Compiler V) (text : String) (value : V), c.add text value = (c', none) →
      ∃ t k, c.dialect.parse text = .ok t ∧ t.size? = some k ∧
        c'.automaton.size = c.automaton.size + k + 2 ∧ c'.automaton.size ≤ 2 ^ 20 := by
  refine ⟨fun t k ht hk n s => ?_, fun c c' text value h => ?_⟩
  · rw [Tree.size_lower ht, Tree.size_of_size? hk]
  · obtain ⟨t, ht, hfits, rfl⟩ := exists_insert_of_add h
    obtain ⟨k, hk, hle⟩ := exists_size?_of_fits hfits
    have hsize : (c.insert t value).automaton.size = c.automaton.size + k + 2 := by
      rw [size_insert (Dialect.parse_sound ht).ordered, Tree.size_of_size? hk]
    have hmax : maxStates = 2 ^ 20 := by simp [maxStates]
    exact ⟨t, k, ht, hk, hsize, by omega⟩

/-- A bounded repetition of a choice with an unbounded one in it has 16 states. -/
theorem size_predicted_nested :
    let t : Tree := .repetition (.choice [.char 'a', .repetition (.char 'b') 0 none]) 2 (some 3)
    t.Ordered ∧ t.size? = some 16 ∧ (t.lower (NFA.empty.addEmpty : NFA Nat) 0).1.size = 17 ∧
      ∃ c', (new .regex : Compiler Nat).add "(a|b*){2,3}" 1 = (c', none) ∧ c'.automaton.size = 19 := by
  intro t
  have hparse : Dialect.regex.parse "(a|b*){2,3}" = .ok t := by
    rw [Dialect.parse, Dialect.tokens_eq_reading]
    with_unfolding_all rfl
  have ht : t.Ordered := (Dialect.parse_sound hparse).ordered
  have hk : t.size? = some 16 := by
    simp [t, Tree.size?, Tree.sizeFrom?, Tree.char, Word.mul?, Word.add?, Word.ofNat?, Word.limit]
  have hfits : (new .regex : Compiler Nat).fits t = true := by
    simp [fits, hk, Word.add?, Word.ofNat?, Word.limit, maxStates]
  have hadd : (new .regex : Compiler Nat).add "(a|b*){2,3}" 1 = ((new .regex).insert t 1, none) :=
    add_eq_ok hparse hfits 1
  obtain ⟨t', k, hparse', hk', hsize, -⟩ := size_predicted.2 _ _ _ _ hadd
  obtain rfl : t = t' := Except.ok.inj (hparse.symm.trans hparse')
  obtain rfl : 16 = k := Option.some.inj (hk.symm.trans hk')
  refine ⟨ht, hk, ?_, _, hadd, ?_⟩
  · rw [size_predicted.1 t 16 ht hk]
    rfl
  · rw [hsize, size_new]

/-- Patterns take the automaton beyond the limit only if it is there already. -/
theorem size_addAll_le (c : Compiler V) (ps : List (String × V)) :
    (c.addAll ps).1.automaton.size ≤ max c.automaton.size maxStates := by
  induction ps generalizing c with
  | nil =>
      exact Nat.le_max_left _ _
  | cons p ps ih =>
      rw [addAll]
      rcases c.add_cases p.1 p.2 with ⟨e, hadd⟩ | ⟨c', hadd⟩
      · rw [hadd]
        exact Nat.le_max_left _ _
      · rw [hadd]
        calc
          (c'.addAll ps).1.automaton.size ≤ max c'.automaton.size maxStates := ih c'
          _ = maxStates := Nat.max_eq_right (size_le_of_add hadd)
          _ ≤ max c.automaton.size maxStates := Nat.le_max_right _ _

theorem size_call_le (c : Compiler V) {k : Call V} (hk : k.isEnd = false) :
    (c.call k).1.automaton.size ≤ max c.automaton.size maxStates := by
  cases k with
  | add text value =>
      rw [call_add]
      exact size_addAll_le c [(text, value)]
  | addAll ps =>
      exact size_addAll_le c ps
  | addEndOfText value =>
      exact absurd hk (by simp [Call.isEnd])

/-- Beyond the limit there are values for the end of the text only. -/
theorem size_calls_le (c : Compiler V) (ks : List (Call V)) :
    (c.calls ks).automaton.size ≤ max c.automaton.size maxStates + ks.countP Call.isEnd := by
  induction ks generalizing c with
  | nil =>
      exact Nat.le_max_left _ _
  | cons k ks ih =>
      have hrest := ih (c.call k).1
      rw [calls, List.countP_cons]
      cases hk : k.isEnd with
      | false =>
          have := size_call_le c hk
          simp only [if_false, Bool.false_eq_true]
          omega
      | true =>
          cases k with
          | addEndOfText value =>
              simp only [call, size_addEndOfText] at hrest ⊢
              simp only [if_true]
              omega
          | add | addAll =>
              exact absurd hk (by simp [Call.isEnd])

/-- The limit holds after each of some calls if no value for the end of the text is added to an automaton
that has reached it. -/
theorem size_within (ks : List (Call V))
    (h : ∀ before value, before ++ [.addEndOfText value] <+: ks →
      ((new d).calls before).automaton.size < maxStates) :
    ((new d).calls ks).automaton.size ≤ maxStates := by
  induction ks using List.reverseRecOn with
  | nil =>
      exact size_new_le
  | append_singleton ks k ih =>
      have hks := ih fun before value hbefore => h before value (hbefore.trans (List.prefix_append _ _))
      rw [calls_concat]
      cases hk : k.isEnd with
      | false =>
          have := size_call_le ((new d).calls ks) hk
          omega
      | true =>
          cases k with
          | addEndOfText value =>
              rw [call, size_addEndOfText]
              exact h ks value List.prefix_rfl
          | add | addAll =>
              exact absurd hk (by simp [Call.isEnd])

/-- A new compiler stays within the limit as long as no value for the end of the text is added when the
automaton has reached it: patterns are refused in time, but these values are not. So the automaton is larger
than the limit by no more than the number of these values. -/
theorem size_within_iff (d : Dialect) (ks : List (Call V)) :
    ((∀ before, before <+: ks → ((new d).calls before).automaton.size ≤ maxStates) ↔
      ∀ before value, before ++ [.addEndOfText value] <+: ks →
        ((new d).calls before).automaton.size < maxStates) ∧
    ((new d).calls ks).automaton.size ≤ maxStates + ks.countP Call.isEnd := by
  refine ⟨⟨fun h before value hbefore => ?_, fun h before hbefore => ?_⟩, ?_⟩
  · have hle := h _ hbefore
    rw [calls_concat, call, size_addEndOfText] at hle
    exact hle
  · exact size_within before fun b value hb => h b value (hb.trans hbefore)
  · have hle := size_calls_le (new d) ks
    rw [Nat.max_eq_right size_new_le] at hle
    exact hle

/-- A pattern that fits, and a value for the end of the text behind it, whether this fits or not. -/
theorem size_add_addEndOfText {text : String} {t : Tree} (ht : c.dialect.parse text = .ok t)
    (hfits : c.fits t = true) (u v : V) :
    (c.calls [.add text u, .addEndOfText v]).automaton.size = c.automaton.size + t.size + 3 := by
  have hcalls : c.calls [.add text u, .addEndOfText v] = (c.insert t u).addEndOfText v := by
    simp only [calls, call, add_eq_ok ht hfits u]
  rw [hcalls, size_addEndOfText, size_insert (Dialect.parse_sound ht).ordered]

/-- A pattern that fills the automaton to the limit, and one state more. -/
theorem size_exceeds_limit :
    ((new .regex : Compiler Nat).calls [.add "a{1048572}" 1, .addEndOfText 2]).automaton.size =
      maxStates + 1 := by
  have hparse : Dialect.regex.parse "a{1048572}" = .ok (.repetition (.char 'a') 1048572 (some 1048572)) := by
    rw [Dialect.parse, Dialect.tokens_eq_reading]
    with_unfolding_all rfl
  have hfits : (new .regex : Compiler Nat).fits (.repetition (.char 'a') 1048572 (some 1048572)) = true := by
    simp [fits, Tree.size?, Tree.char, Word.mul?, Word.add?, Word.ofNat?, Word.limit, maxStates]
  rw [size_add_addEndOfText (c := (new .regex : Compiler Nat)) hparse hfits]
  simp [maxStates, Tree.size, Tree.char]

end Compiler

end MaximalMunch
