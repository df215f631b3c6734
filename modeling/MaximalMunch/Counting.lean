/-!
# Counting what is left

Work lists end because each entry is handled once. The lemmas here count the candidates not handled yet.

- `countP_lt_countP`     : a stronger test that rejects one more element counts fewer
- `sublists`             : all sublists of a list, `2 ^ n` of them for `n` elements
- `sublist_range_of_lt`  : ascending numbers below `n` are a sublist of `0, …, n - 1`
-/

namespace MaximalMunch

theorem countP_lt_countP {α : Type} {p q : α → Bool} {l : List α} (x : α)
    (himp : ∀ a ∈ l, q a = true → p a = true) (hx : x ∈ l) (hp : p x = true) (hq : q x = false) :
    l.countP q < l.countP p := by
  induction l with
  | nil => exact absurd hx (by simp)
  | cons a as ih =>
    have hmono : as.countP q ≤ as.countP p :=
      List.countP_mono_left fun b hb => himp b (by simp [hb])
    rcases List.mem_cons.1 hx with rfl | hx
    · -- The head is the element that only `p` counts.
      simp only [List.countP_cons, hp, hq]
      simp only [if_true, Bool.false_eq_true, if_false]
      omega
    · have hlt := ih (fun b hb => himp b (by simp [hb])) hx
      have hhead := himp a (by simp)
      simp only [List.countP_cons]
      by_cases ha : q a = true
      · simp only [ha, hhead ha, if_true]
        omega
      · simp only [ha]
        simp only [Bool.false_eq_true, if_false]
        omega

/-- All sublists of a list. -/
def sublists {α : Type} : List α → List (List α)
  | [] => [[]]
  | a :: as => sublists as ++ (sublists as).map (a :: ·)

theorem mem_sublists_iff {α : Type} {l as : List α} : l ∈ sublists as ↔ l.Sublist as := by
  induction as generalizing l with
  | nil => simp [sublists]
  | cons a as ih =>
    simp only [sublists, List.mem_append, List.mem_map, ih]
    constructor
    · rintro (h | ⟨k, hk, rfl⟩)
      · exact h.cons a
      · exact hk.cons_cons a
    · intro h
      cases h with
      | cons _ h => exact Or.inl h
      | cons_cons _ h => exact Or.inr ⟨_, h, rfl⟩

theorem sublist_range'_of_lt {l : List Nat} {a k : Nat} (hl : l.Pairwise (· < ·))
    (hlo : ∀ x ∈ l, a ≤ x) (hhi : ∀ x ∈ l, x < a + k) : l.Sublist (List.range' a k) := by
  induction k generalizing a l with
  | zero =>
    cases l with
    | nil => exact List.nil_sublist _
    | cons x xs =>
      have := hlo x (by simp)
      have := hhi x (by simp)
      omega
  | succ k ih =>
    rw [List.range'_succ]
    cases l with
    | nil => exact List.nil_sublist _
    | cons x xs =>
      obtain ⟨hx, hxs⟩ := List.pairwise_cons.1 hl
      have hxa := hlo x (by simp)
      by_cases he : x = a
      · subst he
        refine List.Sublist.cons_cons _ (ih hxs (fun y hy => hx y hy) fun y hy => ?_)
        have := hhi y (by simp [hy])
        omega
      · refine List.Sublist.cons _ (ih hl (fun y hy => ?_) fun y hy => ?_)
        · rcases List.mem_cons.1 hy with rfl | hy
          · omega
          · have := hx y hy
            omega
        · have := hhi y hy
          omega

theorem sublist_range_of_lt {l : List Nat} {n : Nat} (hl : l.Pairwise (· < ·))
    (hn : ∀ x ∈ l, x < n) : l.Sublist (List.range n) := by
  rw [List.range_eq_range']
  exact sublist_range'_of_lt hl (fun _ _ => Nat.zero_le _) fun x hx => by simpa using hn x hx

end MaximalMunch
