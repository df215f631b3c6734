import MaximalMunch.Pattern.Regex
import MaximalMunch.Proofs.BoundsGrammar
import MaximalMunch.Proofs.ClassGrammar

/-!
# The grammar of regular expressions

A choice has branches between bars, a branch has terms, and a term is an atom with an optional quantifier.
The depth is the number of open groups: outside of all groups a closing parenthesis is a character.

- `Regex.Choice`, `Branch`, `Atom`, `Quantifier` : derivations
- `Choice.Derives` and the like                  : the words that they derive, by depth
- `Choice.tree`                                  : the tree of a derivation
- `Choice.Derives.unique`                        : a word has one derivation at most
-/

namespace MaximalMunch

namespace Regex

open Tokens

/-! ## Derivations -/

/-- A quantifier. -/
inductive Quantifier where
  | zeroOrMore
  | oneOrMore
  | zeroOrOne
  | bounds (s : Bounds.Specifier)

mutual

/-- A choice, from its first branch on. -/
inductive Choice where
  | last (b : Branch)
  | bar (b : Branch) (more : Choice)

/-- A branch, from its first term on. -/
inductive Branch where
  | nil
  | cons (a : Atom) (q : Option Quantifier) (more : Branch)

/-- An atom. -/
inductive Atom where
  | wildcard
  | literal (c : Char)
  | characterClass (l : CharacterClass.Listing)
  | group (c : Choice)

end

/-! ## Trees -/

/-- The repetition of a tree. -/
def Quantifier.tree (t : Tree) : Quantifier → Tree
  | zeroOrMore => Tree.repeatOf t 0 none
  | oneOrMore => Tree.repeatOf t 1 none
  | zeroOrOne => Tree.repeatOf t 0 (some 1)
  | bounds s => Tree.repeatOf t s.min s.max

/-- A tree with its quantifier, if there is one. -/
def quantifiedTree (t : Tree) : Option Quantifier → Tree
  | none => t
  | some q => q.tree t

mutual

/-- The trees of the branches. -/
def Choice.branches : Choice → List Tree
  | .last b => [Tree.seqOf b.terms]
  | .bar b more => Tree.seqOf b.terms :: more.branches

/-- The trees of the terms. -/
def Branch.terms : Branch → List Tree
  | .nil => []
  | .cons a q more => quantifiedTree a.tree q :: more.terms

/-- The tree of an atom. -/
def Atom.tree : Atom → Tree
  | .wildcard => Tree.any
  | .literal c => Tree.char c
  | .characterClass l => .characters l.ranges
  | .group c => Tree.choiceOf c.branches

end

/-- The tree of a choice. -/
def Choice.tree (c : Choice) : Tree := Tree.choiceOf c.branches

/-! ## What derivations derive -/

/-- Tokens of this kind begin a quantifier. -/
def Quantifies (k : Token.Kind) : Prop :=
  k = .zeroOrMore ∨ k = .oneOrMore ∨ k = .zeroOrOne ∨ k = .repeatBegin

/-- A quantifier stands in front. -/
def Quantified (w : List Token) : Prop := ∃ k, Quantifies k ∧ Token.Begins w k

/-- In the place of an atom, tokens of this kind stand for their characters. -/
structure Literal (depth : Nat) (k : Token.Kind) : Prop where
  ne_wildcard : k ≠ .wildcard
  ne_classBegin : k ≠ .classBegin
  ne_groupBegin : k ≠ .groupBegin
  ne_alternative : k ≠ .alternative
  ne_groupEnd : 0 < depth → k ≠ .groupEnd

inductive Quantifier.Derives : List Token → Quantifier → Prop where
  | zeroOrMore {t : Token} : t.kind = .zeroOrMore → Derives [t] .zeroOrMore
  | oneOrMore {t : Token} : t.kind = .oneOrMore → Derives [t] .oneOrMore
  | zeroOrOne {t : Token} : t.kind = .zeroOrOne → Derives [t] .zeroOrOne
  | bounds {t : Token} {w : List Token} {s : Bounds.Specifier} :
      t.kind = .repeatBegin → Bounds.Written w s → s.Valid → Derives (t :: w) (.bounds s)

mutual

inductive Choice.Derives : Nat → List Token → Choice → Prop where
  | last {d : Nat} {w : List Token} {b : Branch} : Branch.Derives d w b → Choice.Derives d w (.last b)
  | bar {d : Nat} {u v : List Token} {t : Token} {b : Branch} {more : Choice} :
      Branch.Derives d u b → t.kind = .alternative → Choice.Derives d v more →
        Choice.Derives d (u ++ t :: v) (.bar b more)

inductive Branch.Derives : Nat → List Token → Branch → Prop where
  | nil {d : Nat} : Branch.Derives d [] .nil
  /-- An atom in front of a quantifier never goes without it. -/
  | plain {d : Nat} {u v : List Token} {a : Atom} {more : Branch} :
      Atom.Derives d u a → ¬ Quantified v → Branch.Derives d v more →
        Branch.Derives d (u ++ v) (.cons a none more)
  | quantified {d : Nat} {u v w : List Token} {a : Atom} {q : Quantifier} {more : Branch} :
      Atom.Derives d u a → Quantifier.Derives v q → Branch.Derives d w more →
        Branch.Derives d (u ++ (v ++ w)) (.cons a (some q) more)

inductive Atom.Derives : Nat → List Token → Atom → Prop where
  | wildcard {d : Nat} {t : Token} : t.kind = .wildcard → Atom.Derives d [t] .wildcard
  | literal {d : Nat} {t : Token} : Literal d t.kind → Atom.Derives d [t] (.literal t.char)
  | characterClass {d : Nat} {t : Token} {w : List Token} {l : CharacterClass.Listing} :
      t.kind = .classBegin → CharacterClass.Class w l → Atom.Derives d (t :: w) (.characterClass l)
  | group {d : Nat} {t t' : Token} {w : List Token} {c : Choice} :
      t.kind = .groupBegin → d < maxDepth → Choice.Derives (d + 1) w c → t'.kind = .groupEnd →
        Atom.Derives d (t :: (w ++ [t'])) (.group c)

end

/-! ## Uniqueness -/

variable {d : Nat} {u u' v v' w : List Token} {k : Token.Kind}

/-- What may stand behind a choice: the end of the text, or the end of the group around it. -/
def Stops (d : Nat) (w : List Token) : Prop := ∀ k, Token.Begins w k → k = .groupEnd ∧ 0 < d

/-- What may stand behind a branch: this, or a bar. -/
def BranchStops (d : Nat) (w : List Token) : Prop :=
  ∀ k, Token.Begins w k → k = .alternative ∨ (k = .groupEnd ∧ 0 < d)

theorem Stops.branch (h : Stops d w) : BranchStops d w := fun k hk => Or.inr (h k hk)

theorem stops_nil : Stops d [] := fun _ hk => absurd hk not_begins_nil

theorem stops_groupEnd {t : Token} (ht : t.kind = .groupEnd) : Stops (d + 1) (t :: w) := by
  intro k hk
  rw [← begins_cons_iff.1 hk]
  exact ⟨ht, Nat.succ_pos d⟩

theorem branchStops_bar {t : Token} (ht : t.kind = .alternative) : BranchStops d (t :: w) := by
  intro k hk
  rw [← begins_cons_iff.1 hk]
  exact Or.inl ht

/-- No quantifier stands behind a branch. -/
theorem BranchStops.not_quantified (h : BranchStops d w) : ¬ Quantified w := by
  rintro ⟨k, hk, hbegins⟩
  rcases h k hbegins with rfl | ⟨rfl, -⟩ <;> simp [Quantifies] at hk

theorem quantified_append (h : Quantified u) : Quantified (u ++ v) := by
  rcases h with ⟨k, hk, hbegins⟩
  exact ⟨k, hk, begins_append hbegins⟩

theorem not_quantified_append (hu : ¬ Quantified u) (hv : BranchStops d v) : ¬ Quantified (u ++ v) := by
  cases u with
  | nil => exact hv.not_quantified
  | cons t u =>
      rintro ⟨k, hk, hbegins⟩
      exact hu ⟨k, hk, begins_cons_iff.2 (begins_cons_iff.1 hbegins)⟩

theorem Quantifier.Derives.quantified {q : Quantifier} (h : q.Derives u) : Quantified u := by
  cases h with
  | zeroOrMore ht => exact ⟨_, Or.inl rfl, begins_cons_iff.2 ht⟩
  | oneOrMore ht => exact ⟨_, Or.inr (Or.inl rfl), begins_cons_iff.2 ht⟩
  | zeroOrOne ht => exact ⟨_, Or.inr (Or.inr (Or.inl rfl)), begins_cons_iff.2 ht⟩
  | bounds ht => exact ⟨_, Or.inr (Or.inr (Or.inr rfl)), begins_cons_iff.2 ht⟩

/-- A branch without a quantifier in front does not go on with one. -/
theorem Quantifier.Derives.ne_plain {q : Quantifier} (h : q.Derives u') (hu : ¬ Quantified u)
    (hv : BranchStops d v) : u ++ v ≠ u' ++ v' := by
  intro heq
  exact not_quantified_append hu hv (heq ▸ quantified_append h.quantified)

theorem Quantifier.Derives.unique {q q' : Quantifier} (h : q.Derives u) (h' : q'.Derives u')
    (heq : u ++ v = u' ++ v') : u = u' ∧ q = q' := by
  cases h with
  | zeroOrMore ht | oneOrMore ht | zeroOrOne ht =>
      cases h' with
      | zeroOrMore ht' | oneOrMore ht' | zeroOrOne ht' | bounds ht' =>
          obtain ⟨rfl, -⟩ := List.cons.inj heq
          simp_all
  | bounds ht hwritten _ =>
      cases h' with
      | zeroOrMore ht' | oneOrMore ht' | zeroOrOne ht' =>
          obtain ⟨rfl, -⟩ := List.cons.inj heq
          exact absurd (ht.symm.trans ht') (by simp)
      | bounds _ hwritten' _ =>
          obtain ⟨rfl, htail⟩ := List.cons.inj heq
          obtain ⟨rfl, rfl⟩ := hwritten.unique hwritten' htail
          exact ⟨rfl, rfl⟩

/-- An atom begins with a token that does not end a branch. -/
theorem Atom.Derives.not_stops {a : Atom} (h : a.Derives d u) : ¬ BranchStops d (u ++ v) := by
  intro hstops
  have hfirst : ∀ {t : Token} {w : List Token}, u = t :: w →
      t.kind = .alternative ∨ (t.kind = .groupEnd ∧ 0 < d) := by
    rintro t w rfl
    exact hstops t.kind (begins_cons_iff.2 rfl)
  cases h with
  | wildcard ht | characterClass ht | group ht =>
      rcases hfirst rfl with hk | ⟨hk, -⟩ <;> exact absurd (ht.symm.trans hk) (by simp)
  | literal ht =>
      rcases hfirst rfl with hk | ⟨hk, hd⟩
      · exact ht.ne_alternative hk
      · exact ht.ne_groupEnd hd hk

/-- Behind a branch that ends its choice there is no bar. -/
theorem Stops.ne_bar {t : Token} (hv : Stops d v) (ht : t.kind = .alternative) : v ≠ t :: w := by
  rintro rfl
  exact absurd (ht.symm.trans (hv t.kind (begins_cons_iff.2 rfl)).1) (by simp)

-- By recursion on the derivation, for choices, branches and atoms at once.
mutual

/-- A text begins with one choice at most that can end where it does. -/
theorem choice_unique {d : Nat} {u u' v v' : List Token} {c' : Choice} :
    (c : Choice) → c.Derives d u → c'.Derives d u' → Stops d v → Stops d v' → u ++ v = u' ++ v' →
      u = u' ∧ c = c'
  | .last b, h, h', hv, hv', heq => by
      cases h with
      | last hb =>
          cases h' with
          | last hb' =>
              obtain ⟨rfl, rfl⟩ := branch_unique b hb hb' hv.branch hv'.branch heq
              exact ⟨rfl, rfl⟩
          | bar hb' ht' _ =>
              rw [List.append_assoc, List.cons_append] at heq
              obtain ⟨rfl, rfl⟩ := branch_unique b hb hb' hv.branch (branchStops_bar ht') heq
              exact absurd (List.append_cancel_left heq) (hv.ne_bar ht')
  | .bar b more, h, h', hv, hv', heq => by
      cases h with
      | bar hb ht hc =>
          rw [List.append_assoc, List.cons_append] at heq
          cases h' with
          | last hb' =>
              obtain ⟨rfl, rfl⟩ := branch_unique b hb hb' (branchStops_bar ht) hv'.branch heq
              exact absurd (List.append_cancel_left heq).symm (hv'.ne_bar ht)
          | bar hb' ht' hc' =>
              rw [List.append_assoc, List.cons_append] at heq
              obtain ⟨rfl, rfl⟩ :=
                branch_unique b hb hb' (branchStops_bar ht) (branchStops_bar ht') heq
              obtain ⟨rfl, htail⟩ := List.cons.inj (List.append_cancel_left heq)
              obtain ⟨rfl, rfl⟩ := choice_unique more hc hc' hv hv' htail
              exact ⟨rfl, rfl⟩

theorem branch_unique {d : Nat} {u u' v v' : List Token} {b' : Branch} :
    (b : Branch) → b.Derives d u → b'.Derives d u' → BranchStops d v → BranchStops d v' →
      u ++ v = u' ++ v' → u = u' ∧ b = b'
  | .nil, h, h', hv, hv', heq => by
      cases h with
      | nil =>
          cases h' with
          | nil =>
              exact ⟨rfl, rfl⟩
          | plain ha' | quantified ha' =>
              rw [List.nil_append, List.append_assoc] at heq
              exact absurd (heq ▸ hv) ha'.not_stops
  | .cons a none more, h, h', hv, hv', heq => by
      cases h with
      | plain ha hnot hb =>
          rw [List.append_assoc] at heq
          cases h' with
          | nil =>
              rw [List.nil_append] at heq
              exact absurd (heq ▸ hv') ha.not_stops
          | plain ha' _ hb' =>
              rw [List.append_assoc] at heq
              obtain ⟨rfl, rfl⟩ := atom_unique a ha ha' heq
              obtain ⟨rfl, rfl⟩ := branch_unique more hb hb' hv hv' (List.append_cancel_left heq)
              exact ⟨rfl, rfl⟩
          | quantified ha' hq' _ =>
              -- The quantifier would have been taken.
              rw [List.append_assoc, List.append_assoc] at heq
              obtain ⟨rfl, rfl⟩ := atom_unique a ha ha' heq
              exact absurd (List.append_cancel_left heq) (hq'.ne_plain hnot hv)
  | .cons a (some q) more, h, h', hv, hv', heq => by
      cases h with
      | quantified ha hq hb =>
          rw [List.append_assoc, List.append_assoc] at heq
          cases h' with
          | nil =>
              rw [List.nil_append] at heq
              exact absurd (heq ▸ hv') ha.not_stops
          | plain ha' hnot' _ =>
              rw [List.append_assoc] at heq
              obtain ⟨rfl, rfl⟩ := atom_unique a ha ha' heq
              exact absurd (List.append_cancel_left heq).symm (hq.ne_plain hnot' hv')
          | quantified ha' hq' hb' =>
              rw [List.append_assoc, List.append_assoc] at heq
              obtain ⟨rfl, rfl⟩ := atom_unique a ha ha' heq
              obtain ⟨rfl, rfl⟩ := hq.unique hq' (List.append_cancel_left heq)
              obtain ⟨rfl, rfl⟩ := branch_unique more hb hb' hv hv'
                (List.append_cancel_left (List.append_cancel_left heq))
              exact ⟨rfl, rfl⟩

theorem atom_unique {d : Nat} {u u' v v' : List Token} {a' : Atom} :
    (a : Atom) → a.Derives d u → a'.Derives d u' → u ++ v = u' ++ v' → u = u' ∧ a = a'
  | .wildcard, h, h', heq => by
      cases h with
      | wildcard ht =>
          cases h' with
          | wildcard =>
              obtain ⟨rfl, -⟩ := List.cons.inj heq
              exact ⟨rfl, rfl⟩
          | literal hl =>
              obtain ⟨rfl, -⟩ := List.cons.inj heq
              exact absurd ht hl.ne_wildcard
          | characterClass ht' | group ht' =>
              obtain ⟨rfl, -⟩ := List.cons.inj heq
              exact absurd (ht.symm.trans ht') (by simp)
  | .literal c, h, h', heq => by
      cases h with
      | literal hl =>
          cases h' with
          | wildcard ht' =>
              obtain ⟨rfl, -⟩ := List.cons.inj heq
              exact absurd ht' hl.ne_wildcard
          | literal =>
              obtain ⟨rfl, -⟩ := List.cons.inj heq
              exact ⟨rfl, rfl⟩
          | characterClass ht' =>
              obtain ⟨rfl, -⟩ := List.cons.inj heq
              exact absurd ht' hl.ne_classBegin
          | group ht' =>
              obtain ⟨rfl, -⟩ := List.cons.inj heq
              exact absurd ht' hl.ne_groupBegin
  | .characterClass l, h, h', heq => by
      cases h with
      | characterClass ht hclass =>
          cases h' with
          | wildcard ht' | group ht' =>
              obtain ⟨rfl, -⟩ := List.cons.inj heq
              exact absurd (ht.symm.trans ht') (by simp)
          | literal hl =>
              obtain ⟨rfl, -⟩ := List.cons.inj heq
              exact absurd ht hl.ne_classBegin
          | characterClass _ hclass' =>
              obtain ⟨rfl, htail⟩ := List.cons.inj heq
              obtain ⟨rfl, rfl⟩ := hclass.unique hclass' htail
              exact ⟨rfl, rfl⟩
  | .group c, h, h', heq => by
      cases h with
      | group ht _ hc hend =>
          cases h' with
          | wildcard ht' | characterClass ht' =>
              obtain ⟨rfl, -⟩ := List.cons.inj heq
              exact absurd (ht.symm.trans ht') (by simp)
          | literal hl =>
              obtain ⟨rfl, -⟩ := List.cons.inj heq
              exact absurd ht hl.ne_groupBegin
          | group _ _ hc' hend' =>
              -- Both choices end at a closing parenthesis, hence at the same one.
              simp only [List.cons_append, List.append_assoc, List.nil_append, List.cons.injEq] at heq
              obtain ⟨rfl, htail⟩ := heq
              obtain ⟨rfl, rfl⟩ :=
                choice_unique c hc hc' (stops_groupEnd hend) (stops_groupEnd hend') htail
              obtain ⟨rfl, -⟩ := List.cons.inj (List.append_cancel_left htail)
              exact ⟨rfl, rfl⟩

end

/-- A word has one derivation at most. -/
theorem Choice.Derives.unique {c c' : Choice} (h : c.Derives d w) (h' : c'.Derives d w) : c = c' := by
  have hend : w ++ [] = w ++ [] := rfl
  exact (choice_unique c h h' stops_nil stops_nil hend).2

end Regex

end MaximalMunch
