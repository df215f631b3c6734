import MaximalMunch.Pattern.Bounds
import MaximalMunch.Pattern.Class
import MaximalMunch.Tree.Basic

/-!
# Regular expressions

A regular expression is a choice of sequences of terms; a term is an atom with an optional quantifier. Atoms
are characters, the wildcard, character classes and groups.

- `Regex.Level`   : what has been read of one open group
- `Regex.State`   : the innermost level, and the levels around it
- `Regex.step`    : what a token in the place of an atom does
- `Regex.read`    : all tokens up to the end

A token that cannot begin an atom stands for its character; so does a closing parenthesis outside of all
groups. At most `Regex.maxDepth` groups may be open at once.
-/

namespace MaximalMunch

namespace Regex

open Tokens

/-- How many groups may be open at once. -/
def maxDepth : Nat := 128

/-- A choice that is being read: its finished sequences, and the terms of the current one. Both lists have
the newest entry in front. -/
structure Level where
  branches : List Tree := []
  terms : List Tree := []

namespace Level

/-- Add a term to the current sequence. -/
def push (l : Level) (t : Tree) : Level := { l with terms := t :: l.terms }

/-- Finish the current sequence and begin another one. -/
def nextBranch (l : Level) : Level :=
  { branches := Tree.seqOf l.terms.reverse :: l.branches, terms := [] }

/-- The choice that has been read. -/
def tree (l : Level) : Tree := Tree.choiceOf l.nextBranch.branches.reverse

end Level

/-- The innermost open level and those around it, from the inside out. The outermost level is the pattern
itself, so the levels around are as many as the open groups. -/
structure State where
  level : Level := {}
  outer : List Level := []

/-- Read the quantifier behind an atom, if there is one. -/
def quantified (t : Tree) : Tokens → Except SyntaxError (Tree × Tokens)
  | .token .oneOrMore _ _ rest => .ok (Tree.repeatOf t 1 none, rest)
  | .token .zeroOrMore _ _ rest => .ok (Tree.repeatOf t 0 none, rest)
  | .token .zeroOrOne _ _ rest => .ok (Tree.repeatOf t 0 (some 1), rest)
  | .token .repeatBegin _ _ rest =>
    match Bounds.read rest with
    | .error e => .error e
    | .ok b => .ok (Tree.repeatOf t b.min b.max, b.rest)
  | ts => .ok (t, ts)

/-- Add an atom with its quantifier to a state. -/
def State.add (s : State) (t : Tree) (ts : Tokens) : Except SyntaxError (State × Tokens) :=
  match quantified t ts with
  | .error e => .error e
  | .ok (t, rest) => .ok ({ s with level := s.level.push t }, rest)

/-- Read one token in the place of an atom, and what belongs to it. -/
def step (s : State) (kind : Token.Kind) (char : Char) (position : Nat) (rest : Tokens) :
    Except SyntaxError (State × Tokens) :=
  match kind with
  | .alternative => .ok ({ s with level := s.level.nextBranch }, rest)
  | .groupBegin =>
    if s.outer.length = maxDepth then .error ⟨.nestingTooDeep, position⟩
    else .ok ({ level := {}, outer := s.level :: s.outer }, rest)
  | .groupEnd =>
    match s.outer with
    -- no group is open
    | [] => s.add (Tree.char char) rest
    | level :: outer => State.add { level, outer } s.level.tree rest
  | .classBegin =>
    match CharacterClass.read rest with
    | .error e => .error e
    | .ok c => s.add (.characters c.ranges) c.rest
  | .wildcard => s.add Tree.any rest
  | _ => s.add (Tree.char char) rest

/-! ## Progress -/

theorem length_quantified_le {t t' : Tree} {ts rest : Tokens} (h : quantified t ts = .ok (t', rest)) :
    rest.length ≤ ts.length := by
  unfold quantified at h
  split at h
  case h_4 =>
    split at h
    · exact absurd h (by simp)
    · rename_i b hb
      obtain ⟨-, rfl⟩ := by simpa using h
      have := Bounds.length_rest_read hb
      simp only [length]
      omega
  all_goals
    obtain ⟨-, rfl⟩ := by simpa using h
    simp [length]

theorem length_add_le {s s' : State} {t : Tree} {ts rest : Tokens} (h : s.add t ts = .ok (s', rest)) :
    rest.length ≤ ts.length := by
  unfold State.add at h
  split at h
  · exact absurd h (by simp)
  · rename_i hq
    obtain ⟨-, rfl⟩ := by simpa using h
    exact length_quantified_le hq

theorem length_step_le {s s' : State} {k : Token.Kind} {c : Char} {p : Nat} {ts rest : Tokens}
    (h : step s k c p ts = .ok (s', rest)) : rest.length ≤ ts.length := by
  unfold step at h
  split at h
  · obtain ⟨-, rfl⟩ := by simpa using h
    exact Nat.le_refl _
  · split at h
    · exact absurd h (by simp)
    · obtain ⟨-, rfl⟩ := by simpa using h
      exact Nat.le_refl _
  · split at h <;> exact length_add_le h
  · split at h
    · exact absurd h (by simp)
    · rename_i hc
      exact Nat.le_trans (length_add_le h) (Nat.le_of_lt (CharacterClass.length_rest_read hc))
  · exact length_add_le h
  · exact length_add_le h

/-- `step`, with the fact that it leaves no more tokens. -/
def stepShorter (s : State) (k : Token.Kind) (c : Char) (p : Nat) (ts : Tokens) :
    { r : Except SyntaxError (State × Tokens) //
      ∀ s' rest, r = .ok (s', rest) → rest.length ≤ ts.length } :=
  ⟨step s k c p ts, fun _ _ h => length_step_le h⟩

/-! ## The whole pattern -/

/-- Read tokens up to the end of the pattern. -/
def read (s : State) : Tokens → Except SyntaxError Tree
  | .failed p => .error ⟨.unrecognizedCharacter, p⟩
  | .ended p => if s.outer.isEmpty then .ok s.level.tree else .error ⟨.unfinishedGroup, p⟩
  | .token k c p ts =>
    match stepShorter s k c p ts with
    | ⟨.error e, _⟩ => .error e
    | ⟨.ok (s, rest), _h⟩ => read s rest
termination_by ts => ts.length
decreasing_by
  have := _h _ _ rfl
  simp only [length]
  omega

theorem read_token (s : State) (k : Token.Kind) (c : Char) (p : Nat) (ts : Tokens) :
    read s (.token k c p ts) = (step s k c p ts).bind fun r => read r.1 r.2 := by
  rw [read]
  split <;> rename_i h <;> rw [show step s k c p ts = _ from congrArg Subtype.val h] <;> rfl

/-- The tree of a regular expression. -/
def parse (ts : Tokens) : Except SyntaxError Tree := read {} ts

end Regex

end MaximalMunch
