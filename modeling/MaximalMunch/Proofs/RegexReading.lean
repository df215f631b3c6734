import MaximalMunch.Pattern.Parser
import MaximalMunch.Proofs.RegexGrammar
import MaximalMunch.Proofs.TokenReading

/-!
# Reading regular expressions

The reader of regular expressions accepts just the words of its grammar, and builds the trees of their
derivations.

- `Regex.Suffix`          : the quantifier behind an atom, or none
- `Regex.read_choice`     : what is derived is read, by recursion on the derivation
- `Regex.Remains`         : what the open groups still demand of the tokens
- `Regex.read_written`    : what is read is derived, by induction on the tokens
- `Dialect.regex_correct` : both, for whole patterns
-/

namespace MaximalMunch

namespace Regex

open Tokens

variable {s s' : State} {t t' : Tree} {ts mid rest : Tokens} {u v w : List Token}

/-! ## Quantifiers -/

/-- No quantifier stands in front of the tokens. -/
def Unquantified (ts : Tokens) : Prop := ∀ k, ts.kind? = some k → ¬ Quantifies k

/-- `Suffix ts q rest`: the quantifier `q`, if any, stands in front of `ts`, and `rest` follows. -/
inductive Suffix : Tokens → Option Quantifier → Tokens → Prop where
  | plain {ts : Tokens} : Unquantified ts → Suffix ts none ts
  | quantified {ts rest : Tokens} {v : List Token} {q : Quantifier} :
      q.Derives v → Reads ts v rest → Suffix ts (some q) rest

theorem quantified_of_unquantified (h : Unquantified ts) : quantified t ts = .ok (t, ts) := by
  unfold quantified
  split
  case h_5 => rfl
  all_goals exact absurd (h _ rfl) (by simp [Quantifies])

theorem quantified_iff :
    quantified t ts = .ok (t', rest) ↔ ∃ q, Suffix ts q rest ∧ t' = quantifiedTree t q := by
  constructor
  · intro h
    unfold quantified at h
    split at h
    · obtain ⟨rfl, rfl⟩ := by simpa using h
      exact ⟨_, .quantified (.oneOrMore rfl) (.cons .nil), rfl⟩
    · obtain ⟨rfl, rfl⟩ := by simpa using h
      exact ⟨_, .quantified (.zeroOrMore rfl) (.cons .nil), rfl⟩
    · obtain ⟨rfl, rfl⟩ := by simpa using h
      exact ⟨_, .quantified (.zeroOrOne rfl) (.cons .nil), rfl⟩
    · split at h
      · exact absurd h (by simp)
      · rename_i b hb
        obtain ⟨rfl, rfl⟩ := by simpa using h
        rcases Bounds.read_written hb with ⟨w, s, hreads, hw, hs, hmin, hmax⟩
        exact ⟨_, .quantified (.bounds rfl hw hs) (.cons hreads), by rw [hmin, hmax]; rfl⟩
    · obtain ⟨rfl, rfl⟩ := by simpa using h
      refine ⟨none, .plain ?_, rfl⟩
      rename_i h₁ h₂ h₃ h₄
      intro k hk hquantifies
      rcases kind?_eq_some_iff.1 hk with ⟨c, p, ts, rfl⟩
      rcases hquantifies with rfl | rfl | rfl | rfl
      · exact h₂ _ _ _ rfl
      · exact h₁ _ _ _ rfl
      · exact h₃ _ _ _ rfl
      · exact h₄ _ _ _ rfl
  · rintro ⟨q, hsuffix, rfl⟩
    cases hsuffix with
    | plain h =>
        exact quantified_of_unquantified h
    | quantified hq hreads =>
        cases hq with
        | zeroOrMore ht | oneOrMore ht | zeroOrOne ht =>
            rcases reads_cons_iff.1 hreads with ⟨p, ts', rfl, hnil⟩
            obtain rfl := reads_nil_iff.1 hnil
            rw [ht]
            rfl
        | bounds ht hw hs =>
            rcases reads_cons_iff.1 hreads with ⟨p, ts', rfl, hrest⟩
            rw [ht, quantified, hw.read_eq_ok hs hrest]
            rfl

theorem add_iff {a : Tree} :
    s.add a ts = .ok (s', rest) ↔
      ∃ q, Suffix ts q rest ∧ s' = { s with level := s.level.push (quantifiedTree a q) } := by
  constructor
  · intro h
    unfold State.add at h
    split at h
    · exact absurd h (by simp)
    · rename_i hq
      obtain ⟨rfl, rfl⟩ := by simpa using h
      rcases quantified_iff.1 hq with ⟨q, hsuffix, rfl⟩
      exact ⟨q, hsuffix, rfl⟩
  · rintro ⟨q, hsuffix, rfl⟩
    rw [State.add, quantified_iff.2 ⟨q, hsuffix, rfl⟩]

/-! ## Levels -/

namespace Level

/-- Add terms to the current branch. -/
def extend (l : Level) (ts : List Tree) : Level := { l with terms := ts.reverse ++ l.terms }

/-- Continue a level with a choice, whose first branch goes on with the current one. -/
def enter (l : Level) : Choice → Level
  | .last b => l.extend b.terms
  | .bar b more => (l.extend b.terms).nextBranch.enter more

theorem extend_cons (l : Level) (t : Tree) (ts : List Tree) :
    l.extend (t :: ts) = (l.push t).extend ts := by
  simp [extend, push]

theorem branches_enter (l : Level) (hl : l.terms = []) :
    (c : Choice) → (l.enter c).nextBranch.branches.reverse = l.branches.reverse ++ c.branches
  | .last b => by
      simp [enter, extend, nextBranch, hl, Choice.branches]
  | .bar b more => by
      rw [enter, branches_enter _ rfl more]
      simp [extend, nextBranch, hl, Choice.branches]

/-- A level that is opened for a choice becomes its tree. -/
theorem tree_enter (c : Choice) : (({} : Level).enter c).tree = c.tree := by
  rw [tree, branches_enter {} rfl c]
  rfl

end Level

/-! ## What is derived is read -/

theorem unquantified_of_reads (h : Reads ts v rest) (hv : ¬ Quantified v) (hrest : Unquantified rest) :
    Unquantified ts := by
  cases h with
  | nil => exact hrest
  | cons h =>
      intro k hk hquantifies
      obtain rfl := Option.some.inj hk
      exact hv ⟨_, hquantifies, begins_cons_iff.2 rfl⟩

theorem unquantified_token {k : Token.Kind} {c : Char} {p : Nat} (hk : ¬ Quantifies k) :
    Unquantified (token k c p ts) := by
  intro k' hk'
  rwa [← Option.some.inj hk']

/-- A token that stands for its character is added. -/
theorem step_literal {k : Token.Kind} {c : Char} {p : Nat} (hl : Literal s.outer.length k) :
    step s k c p ts = s.add (Tree.char c) ts := by
  cases k with
  | wildcard => exact absurd rfl hl.ne_wildcard
  | classBegin => exact absurd rfl hl.ne_classBegin
  | groupBegin => exact absurd rfl hl.ne_groupBegin
  | alternative => exact absurd rfl hl.ne_alternative
  | groupEnd =>
      have houter : s.outer = [] := by
        have := hl.ne_groupEnd
        cases h : s.outer with
        | nil => rfl
        | cons => simp [h] at this
      rw [step, houter]
  | _ => rfl

-- By recursion on the derivation, as for its uniqueness.
mutual

theorem read_choice {s : State} {ts rest : Tokens} {w : List Token} :
    (c : Choice) → c.Derives s.outer.length w → Reads ts w rest → Unquantified rest →
      read s ts = read { s with level := s.level.enter c } rest
  | .last b, h, hreads, hrest => by
      cases h with
      | last hb =>
          exact read_branch b hb hreads hrest
  | .bar b more, h, hreads, hrest => by
      cases h with
      | bar hb ht hc =>
          rcases reads_append_iff.1 hreads with ⟨mid, hreads, hmid⟩
          rcases reads_cons_iff.1 hmid with ⟨p, ts', rfl, hmore⟩
          rw [read_branch b hb hreads (unquantified_token (by simp [ht, Quantifies])), ht, read_token]
          exact read_choice (s := { s with level := (s.level.extend b.terms).nextBranch }) more hc hmore
            hrest

theorem read_branch {s : State} {ts rest : Tokens} {w : List Token} :
    (b : Branch) → b.Derives s.outer.length w → Reads ts w rest → Unquantified rest →
      read s ts = read { s with level := s.level.extend b.terms } rest
  | .nil, h, hreads, hrest => by
      cases h with
      | nil =>
          rw [reads_nil_iff.1 hreads]
          rfl
  | .cons a none more, h, hreads, hrest => by
      cases h with
      | plain ha hnot hb =>
          rcases reads_append_iff.1 hreads with ⟨mid, hatom, hmore⟩
          have hsuffix : Suffix mid none mid := .plain (unquantified_of_reads hmore hnot hrest)
          rw [read_atom a ha hatom, add_iff.2 ⟨none, hsuffix, rfl⟩, Branch.terms, Level.extend_cons]
          exact read_branch (s := { s with level := s.level.push (quantifiedTree a.tree none) }) more hb
            hmore hrest
  | .cons a (some q) more, h, hreads, hrest => by
      cases h with
      | quantified ha hq hb =>
          rcases reads_append_iff.1 hreads with ⟨mid, hatom, hreads⟩
          rcases reads_append_iff.1 hreads with ⟨mid', hquant, hmore⟩
          have hsuffix : Suffix mid (some q) mid' := .quantified hq hquant
          rw [read_atom a ha hatom, add_iff.2 ⟨some q, hsuffix, rfl⟩, Branch.terms, Level.extend_cons]
          exact read_branch (s := { s with level := s.level.push (quantifiedTree a.tree (some q)) }) more
            hb hmore hrest

theorem read_atom {s : State} {ts rest : Tokens} {w : List Token} :
    (a : Atom) → a.Derives s.outer.length w → Reads ts w rest →
      read s ts = (s.add a.tree rest).bind fun r => read r.1 r.2
  | .wildcard, h, hreads => by
      cases h with
      | wildcard ht =>
          rcases reads_cons_iff.1 hreads with ⟨p, ts', rfl, hnil⟩
          rw [reads_nil_iff.1 hnil, ht, read_token]
          rfl
  | .literal c, h, hreads => by
      cases h with
      | literal hl =>
          rcases reads_cons_iff.1 hreads with ⟨p, ts', rfl, hnil⟩
          rw [reads_nil_iff.1 hnil, read_token, step_literal hl]
          rfl
  | .characterClass l, h, hreads => by
      cases h with
      | characterClass ht hclass =>
          rcases reads_cons_iff.1 hreads with ⟨p, ts', rfl, hrest⟩
          rcases hclass.read_eq_ok hrest with ⟨p', hok⟩
          rw [read_token, ht, step, hok]
          rfl
  | .group c, h, hreads => by
      cases h with
      | group ht hd hc hend =>
          rcases reads_cons_iff.1 hreads with ⟨p, ts', rfl, hbehind⟩
          rcases reads_append_iff.1 hbehind with ⟨mid, hinside, hmid⟩
          rcases reads_cons_iff.1 hmid with ⟨p', ts'', rfl, hnil⟩
          have hread := read_choice (s := { level := {}, outer := s.level :: s.outer }) c hc hinside
            (unquantified_token (by simp [hend, Quantifies]))
          rw [read_token, ht, step, if_neg (Nat.ne_of_lt hd)]
          refine hread.trans ?_
          rw [reads_nil_iff.1 hnil, hend, read_token, step, Level.tree_enter]
          rfl

end

/-! ## What is read is derived -/

/-- `Follows q v w`: the quantifier `q`, if any, stands in front of `v`, and `w` follows. -/
inductive Follows : Option Quantifier → List Token → List Token → Prop where
  | plain {v : List Token} : ¬ Quantified v → Follows none v v
  | quantified {u v : List Token} {q : Quantifier} : q.Derives u → Follows (some q) (u ++ v) v

/-- `Remains outer l w t`: with the tokens `w`, the open level `l` inside of `outer` becomes the tree `t`. -/
inductive Remains : List Level → Level → List Token → Tree → Prop where
  | pattern {l : Level} {w : List Token} {c : Choice} : c.Derives 0 w → Remains [] l w (l.enter c).tree
  | group {l l' : Level} {outer : List Level} {u v w : List Token} {c : Choice} {e : Token}
      {q : Option Quantifier} {t : Tree} :
      c.Derives (outer.length + 1) u → e.kind = .groupEnd → Follows q v w →
        Remains outer (l'.push (quantifiedTree (l.enter c).tree q)) w t →
          Remains (l' :: outer) l (u ++ e :: v) t

/-- Put a term in front of a choice. -/
def Choice.cons (a : Atom) (q : Option Quantifier) : Choice → Choice
  | .last b => .last (.cons a q b)
  | .bar b more => .bar (.cons a q b) more

theorem Level.enter_cons (l : Level) (a : Atom) (q : Option Quantifier) (c : Choice) :
    l.enter (c.cons a q) = (l.push (quantifiedTree a.tree q)).enter c := by
  cases c <;> rw [Choice.cons, enter, enter, Branch.terms, extend_cons]

theorem Branch.Derives.cons {d : Nat} {a : Atom} {q : Option Quantifier} {b : Branch}
    (ha : a.Derives d u) (hb : b.Derives d w) {v x : List Token} (hq : Follows q v (w ++ x)) :
    ∃ v', v = v' ++ x ∧ (Branch.cons a q b).Derives d (u ++ v') := by
  generalize hwx : w ++ x = y at hq
  cases hq with
  | plain hnot =>
      -- What stands behind the branch is no matter here: no quantifier stands in front of all that follows.
      rw [← hwx] at hnot
      exact ⟨w, hwx.symm, .plain ha (mt quantified_append hnot) hb⟩
  | @quantified v' _ q hq =>
      exact ⟨v' ++ w, by rw [List.append_assoc, hwx], .quantified ha hq hb⟩

theorem Choice.Derives.cons {d : Nat} {a : Atom} {q : Option Quantifier} {c : Choice}
    (ha : a.Derives d u) (hc : c.Derives d w) {v x : List Token} (hq : Follows q v (w ++ x)) :
    ∃ v', v = v' ++ x ∧ (c.cons a q).Derives d (u ++ v') := by
  cases hc with
  | last hb =>
      rcases Branch.Derives.cons ha hb hq with ⟨v', rfl, hcons⟩
      exact ⟨v', rfl, .last hcons⟩
  | @bar _ wb wc t _ _ hb ht hc =>
      rw [List.append_assoc] at hq
      rcases Branch.Derives.cons ha hb hq with ⟨v', rfl, hcons⟩
      refine ⟨v' ++ t :: wc, by rw [List.append_assoc], ?_⟩
      rw [← List.append_assoc]
      exact .bar hcons ht hc

/-- A term is read before what remains. -/
theorem Remains.term {outer : List Level} {l : Level} {a : Atom} {q : Option Quantifier}
    (ha : a.Derives outer.length u) (hq : Follows q v w)
    (h : Remains outer (l.push (quantifiedTree a.tree q)) w t) : Remains outer l (u ++ v) t := by
  cases h with
  | @pattern _ _ c hc =>
      rw [← List.append_nil w] at hq
      rcases Choice.Derives.cons ha hc hq with ⟨v', rfl, hcons⟩
      rw [List.append_nil, ← Level.enter_cons]
      exact .pattern hcons
  | group hc hend hfollows hremains =>
      rcases Choice.Derives.cons ha hc hq with ⟨v', rfl, hcons⟩
      rw [← Level.enter_cons] at hremains
      rw [← List.append_assoc]
      exact .group hcons hend hfollows hremains

/-- A bar is read before what remains. -/
theorem Remains.bar {outer : List Level} {l : Level} {b : Token} (hb : b.kind = .alternative)
    (h : Remains outer l.nextBranch w t) : Remains outer l (b :: w) t := by
  cases h with
  | @pattern _ _ c hc =>
      exact .pattern (.bar .nil hb hc)
  | group hc hend hfollows hremains =>
      exact .group (.bar .nil hb hc) hend hfollows hremains

theorem Suffix.follows {q : Option Quantifier} (h : Suffix ts q rest) (hw : rest.word? = some w) :
    ∃ v, ts.word? = some v ∧ Follows q v w := by
  cases h with
  | plain hnot =>
      refine ⟨w, hw, .plain ?_⟩
      rintro ⟨k, hk, hbegins⟩
      exact hnot k ((begins_iff_of_word? hw).1 hbegins) hk
  | quantified hq hreads =>
      exact ⟨_, by rw [hreads.word?_eq, hw]; rfl, .quantified hq⟩

/-- An atom that is added is read before what remains. -/
theorem Remains.add {a : Atom} (ha : a.Derives s.outer.length u) (hadd : s.add a.tree ts = .ok (s', rest))
    (hw : rest.word? = some w) (h : Remains s'.outer s'.level w t) :
    ∃ v, ts.word? = some v ∧ Remains s.outer s.level (u ++ v) t := by
  rcases add_iff.1 hadd with ⟨q, hsuffix, rfl⟩
  rcases hsuffix.follows hw with ⟨v, hv, hfollows⟩
  exact ⟨v, hv, h.term ha hfollows⟩

/-- What a step reads stands before what remains. -/
theorem Remains.step {k : Token.Kind} {c : Char} {p : Nat} (hdepth : s.outer.length ≤ maxDepth)
    (hstep : step s k c p ts = .ok (s', rest)) (hw : rest.word? = some w)
    (h : Remains s'.outer s'.level w t) :
    ∃ v, ts.word? = some v ∧ Remains s.outer s.level (⟨k, c⟩ :: v) t := by
  unfold Regex.step at hstep
  split at hstep
  · obtain ⟨rfl, rfl⟩ := by simpa using hstep
    exact ⟨w, hw, h.bar rfl⟩
  · -- A group is opened here, and closed in what remains.
    split at hstep
    · exact absurd hstep (by simp)
    · rename_i hne
      obtain ⟨rfl, rfl⟩ := by simpa using hstep
      refine ⟨w, hw, ?_⟩
      cases h with
      | @group _ _ _ u v w' c' e q _ hc hend hfollows hremains =>
          have hd : s.outer.length < maxDepth := Nat.lt_of_le_of_ne hdepth hne
          have ha : (Atom.group c').Derives s.outer.length (⟨.groupBegin, c⟩ :: (u ++ [e])) :=
            .group rfl hd hc hend
          rw [Level.tree_enter] at hremains
          have := Remains.term ha hfollows hremains
          rwa [List.cons_append, List.append_assoc] at this
  · -- A closing parenthesis is a character, or it ends the innermost group.
    split at hstep
    · rename_i houter
      have hl : Literal s.outer.length .groupEnd := by constructor <;> simp [houter]
      exact Remains.add (.literal hl) hstep hw h
    · rename_i level outer houter
      rcases add_iff.1 hstep with ⟨q, hsuffix, rfl⟩
      rcases hsuffix.follows hw with ⟨v, hv, hfollows⟩
      refine ⟨v, hv, ?_⟩
      rw [houter]
      exact .group (u := []) (c := .last .nil) (.last .nil) rfl hfollows h
  · -- The tokens of a class are those that its reader has taken.
    split at hstep
    · exact absurd hstep (by simp)
    · rename_i _ hclass
      rcases CharacterClass.read_written hclass with ⟨x, l, hreads, hl, hranges⟩
      rw [hranges] at hstep
      have ha : (Atom.characterClass l).Derives s.outer.length (⟨.classBegin, c⟩ :: x) :=
        .characterClass rfl hl
      rcases Remains.add ha hstep hw h with ⟨v, hv, hremains⟩
      exact ⟨x ++ v, by rw [hreads.word?_eq, hv]; rfl, hremains⟩
  · exact Remains.add (.wildcard rfl) hstep hw h
  · rename_i h₁ h₂ h₃ h₄ h₅
    have hl : Literal s.outer.length k := ⟨h₅, h₄, h₂, h₁, fun _ => h₃⟩
    exact Remains.add (.literal hl) hstep hw h

theorem outer_add {a : Tree} (h : s.add a ts = .ok (s', rest)) : s'.outer = s.outer := by
  rcases add_iff.1 h with ⟨q, -, rfl⟩
  rfl

/-- A step opens no group too many. -/
theorem length_outer_step {k : Token.Kind} {c : Char} {p : Nat} (hdepth : s.outer.length ≤ maxDepth)
    (h : step s k c p ts = .ok (s', rest)) : s'.outer.length ≤ maxDepth := by
  unfold step at h
  split at h
  · obtain ⟨rfl, rfl⟩ := by simpa using h
    exact hdepth
  · split at h
    · exact absurd h (by simp)
    · rename_i hne
      obtain ⟨rfl, rfl⟩ := by simpa using h
      exact Nat.lt_of_le_of_ne hdepth hne
  · split at h
    · rwa [outer_add h]
    · rename_i houter
      rw [outer_add h]
      rw [houter] at hdepth
      exact Nat.le_of_succ_le hdepth
  · split at h
    · exact absurd h (by simp)
    · rwa [outer_add h]
  · rwa [outer_add h]
  · rwa [outer_add h]

/-- What is read remains to be read in the state before. -/
theorem read_written (hdepth : s.outer.length ≤ maxDepth) (h : read s ts = .ok t) :
    ∃ w, ts.word? = some w ∧ Remains s.outer s.level w t := by
  fun_induction read s ts with
  | case1 => exact absurd h (by simp)
  | case2 s p houter =>
      obtain rfl := by simpa using h
      rw [List.isEmpty_iff.1 houter]
      exact ⟨[], rfl, .pattern (c := .last .nil) (.last .nil)⟩
  | case3 => exact absurd h (by simp)
  | case4 => exact absurd h (by simp)
  | case5 s k c p ts s' rest hshorter hstep ih =>
      have hok : step s k c p ts = .ok (s', rest) := congrArg Subtype.val hstep
      rcases ih (length_outer_step hdepth hok) h with ⟨w, hw, hremains⟩
      rcases hremains.step hdepth hok hw with ⟨v, hv, hremains⟩
      exact ⟨_, by rw [word?, hv]; rfl, hremains⟩

/-- The reader accepts the words of the grammar, and builds the trees of their derivations. -/
theorem parse_eq_ok_iff :
    parse ts = .ok t ↔ ∃ w c, ts.word? = some w ∧ Choice.Derives 0 w c ∧ c.tree = t := by
  constructor
  · intro h
    rcases read_written (Nat.zero_le _) h with ⟨w, hw, hremains⟩
    cases hremains with
    | @pattern _ _ c hc =>
        exact ⟨w, c, hw, hc, (Level.tree_enter c).symm⟩
  · rintro ⟨w, c, hw, hc, rfl⟩
    rcases word?_eq_some_iff.1 hw with ⟨p, hreads⟩
    have hread := read_choice (s := {}) c hc hreads (by simp [Unquantified, kind?])
    rw [parse, hread, read, Level.tree_enter]
    rfl

end Regex

/-- A regular expression is accepted if and only if its tokens are a word of the grammar, and its tree is the
tree of the derivation. There is one derivation at most. -/
theorem Dialect.regex_correct (pattern : String) :
    (∀ t, Dialect.regex.parse pattern = .ok t ↔
      ∃ w c, (Dialect.regex.tokens pattern).word? = some w ∧ Regex.Choice.Derives 0 w c ∧ c.tree = t) ∧
    ∀ w c c', Regex.Choice.Derives 0 w c → Regex.Choice.Derives 0 w c' → c = c' :=
  ⟨fun _ => Regex.parse_eq_ok_iff, fun _ _ _ h h' => h.unique h'⟩

/-- For a group with a quantifier. -/
theorem Dialect.regex_correct_group :
    ∃ w c, (Dialect.regex.tokens "(a|b)*").word? = some w ∧ Regex.Choice.Derives 0 w c ∧
      c.tree = .repetition (.choice [.char 'a', .char 'b']) 0 none ∧
      ∀ c', Regex.Choice.Derives 0 w c' → c' = c := by
  have hparse : Dialect.regex.parse "(a|b)*" =
      .ok (.repetition (.choice [.char 'a', .char 'b']) 0 none) := by
    have htokens : Dialect.regex.tokens "(a|b)*" =
        .token .groupBegin '(' 1 (.token .literal 'a' 2 (.token .alternative '|' 3
          (.token .literal 'b' 4 (.token .groupEnd ')' 5 (.token .zeroOrMore '*' 6 (.ended 7)))))) :=
      (Dialect.tokens_eq_reading _ _).trans (by decide)
    rw [Dialect.parse, htokens]
    simp [Dialect.treeOf, Regex.parse, Regex.read_token, Regex.read, Regex.step, Regex.State.add,
      Regex.quantified, Regex.maxDepth, Regex.Level.push, Regex.Level.nextBranch, Regex.Level.tree,
      Tree.seqOf, Tree.choiceOf, Tree.repeatOf, Except.bind]
  have hcorrect := Dialect.regex_correct "(a|b)*"
  rcases (hcorrect.1 _).1 hparse with ⟨w, c, hw, hc, htree⟩
  exact ⟨w, c, hw, hc, htree, fun c' hc' => hcorrect.2 w c' c hc' hc⟩

end MaximalMunch
