import MaximalMunch.Proofs.Composition
import MaximalMunch.Proofs.RegexDescent

/-!
# The nesting limit

Only so many groups of a regular expression may be open at once, however many there are. This bounds the counter of
the reading functions, the calls that are running inside of each other, and the depth of the tree.

- `Tree.depth`                     : the greatest number of nodes from the root to a leaf
- `Regex.choice_depth`             : by recursion on a derivation, with the room that is left for groups
- `Regex.nestingTooDeep_iff`       : the limit is exceeded by a parenthesis behind as many open groups
- `Dialect.parse_groups`           : groups side by side
- `Dialect.nesting_limit`          : all this for texts
-/

namespace MaximalMunch

open CodePoint Tokens

/-! ## The depth of trees -/

namespace Tree

mutual

/-- The greatest number of nodes from the root to a leaf. -/
def depth : Tree → Nat
  | .characters _ => 1
  | .sequence ts => depthMax ts + 1
  | .choice ts => depthMax ts + 1
  | .repetition t _ _ => depth t + 1

/-- The greatest depth of several trees. -/
def depthMax : List Tree → Nat
  | [] => 0
  | t :: ts => max (depth t) (depthMax ts)

end

variable {t : Tree} {ts : List Tree} {n : Nat}

theorem depthMax_le_iff : depthMax ts ≤ n ↔ ∀ t ∈ ts, t.depth ≤ n := by
  induction ts with
  | nil => simp [depthMax]
  | cons t ts ih => simp [depthMax, ih]

/-- A sequence adds one level at most. -/
theorem depth_seqOf_le (h : ∀ t ∈ ts, t.depth ≤ n) : (seqOf ts).depth ≤ n + 1 := by
  unfold seqOf
  split
  · exact Nat.le_succ_of_le (h _ (by simp))
  · exact Nat.succ_le_succ (depthMax_le_iff.2 h)

/-- So does a choice. -/
theorem depth_choiceOf_le (h : ∀ t ∈ ts, t.depth ≤ n) : (choiceOf ts).depth ≤ n + 1 := by
  unfold choiceOf
  split
  · exact Nat.le_succ_of_le (h _ (by simp))
  · exact Nat.succ_le_succ (depthMax_le_iff.2 h)

/-- So does a repetition. -/
theorem depth_repeatOf_le (h : t.depth ≤ n) {min : Nat} {max : Option Nat} :
    (repeatOf t min max).depth ≤ n + 1 := by
  unfold repeatOf
  split
  · exact Nat.le_succ_of_le h
  · exact Nat.succ_le_succ h

end Tree

namespace Regex

theorem depth_quantifiedTree_le {t : Tree} {n : Nat} (h : t.depth ≤ n) (q : Option Quantifier) :
    (quantifiedTree t q).depth ≤ n + 1 := by
  cases q with
  | none => exact Nat.le_succ_of_le h
  | some q =>
      rw [quantifiedTree]
      cases q <;>
      · rw [Quantifier.tree]
        exact Tree.depth_repeatOf_le h

-- By recursion on the derivation. Each level of groups has a choice, a sequence and a repetition.
mutual

theorem choice_depth {d : Nat} {w : List Token} :
    (c : Choice) → c.Derives d w → ∀ t ∈ c.branches, t.depth ≤ 3 * (maxDepth - d) + 3
  | .last b, h => by
      cases h with
      | last hb =>
          rw [Choice.branches, List.forall_mem_singleton]
          exact Tree.depth_seqOf_le (branch_depth b hb)
  | .bar b more, h => by
      cases h with
      | bar hb _ hc =>
          rw [Choice.branches, List.forall_mem_cons]
          exact ⟨Tree.depth_seqOf_le (branch_depth b hb), choice_depth more hc⟩

theorem branch_depth {d : Nat} {w : List Token} :
    (b : Branch) → b.Derives d w → ∀ t ∈ b.terms, t.depth ≤ 3 * (maxDepth - d) + 2
  | .nil, _ => by
      simp [Branch.terms]
  | .cons a q more, h => by
      rw [Branch.terms, List.forall_mem_cons]
      cases h with
      | plain ha _ hb =>
          exact ⟨depth_quantifiedTree_le (atom_depth a ha) none, branch_depth more hb⟩
      | quantified ha _ hb =>
          exact ⟨depth_quantifiedTree_le (atom_depth a ha) _, branch_depth more hb⟩

theorem atom_depth {d : Nat} {w : List Token} :
    (a : Atom) → a.Derives d w → a.tree.depth ≤ 3 * (maxDepth - d) + 1
  | .wildcard, _ => Nat.le_add_left 1 _
  | .literal _, _ => Nat.le_add_left 1 _
  | .characterClass _, _ => Nat.le_add_left 1 _
  | .group c, h => by
      cases h with
      | group _ hd hc _ =>
          have hinside := Tree.depth_choiceOf_le (choice_depth c hc)
          rw [Atom.tree]
          omega

end

/-- The tree of a regular expression has three levels for the pattern, three for each of the open groups, and one
for the characters. -/
theorem depth_parse_le {ts : Tokens} {t : Tree} (h : parse ts = .ok t) : t.depth ≤ 3 * (maxDepth + 1) + 1 := by
  rcases parse_eq_ok_iff.1 h with ⟨w, c, -, hc, rfl⟩
  exact Tree.depth_choiceOf_le (choice_depth c hc)

/-! ## The limit -/

variable {ts : Tokens} {p : Nat}

theorem kind_of_read_bounds {e : SyntaxError} (h : Bounds.read ts = .error e) :
    e.kind = .unrecognizedCharacter ∨ e.kind = .invalidRepeat ∨ e.kind = .unfinishedRepeat := by
  rcases Bounds.read_eq_error_iff.1 h with ⟨w, s, rest, -, -, hbreaks⟩
  cases hbreaks <;> simp

/-- The limit is exceeded by an opening parenthesis at a place where as many groups are open as there may be. -/
theorem nestingTooDeep_iff :
    parse ts = .error ⟨.nestingTooDeep, p⟩ ↔ ∃ c rest, Opens maxDepth ts (token .groupBegin c p rest) := by
  rw [parse_eq_error_iff]
  constructor
  · rintro ⟨d, rest, hd, hopens, hbreaks⟩
    generalize he : (⟨.nestingTooDeep, p⟩ : SyntaxError) = e at hbreaks
    cases hbreaks with
    | failed | unclosed => exact absurd he (by simp)
    | tooDeep hmax =>
        obtain ⟨-, rfl⟩ := SyntaxError.mk.inj he
        exact ⟨_, _, hmax ▸ hopens⟩
    | characterClass hclass =>
        have hkind := Glob.errorKind_class hclass
        rw [← he] at hkind
        exact absurd hkind (by simp [Glob.ErrorKind])
    | bounds _ _ hbounds =>
        have hkind := kind_of_read_bounds hbounds
        rw [← he] at hkind
        exact absurd hkind (by simp)
  · rintro ⟨c, rest, hopens⟩
    exact ⟨maxDepth, _, Nat.le_refl _, hopens, .tooDeep rfl⟩

end Regex

/-! ## Texts -/

open Regex

theorem Token.Table.eq_of_kind?_groupBegin {c : Char} (h : regex.kind? c = some .groupBegin) : c = '(' := by
  rcases (kind?_eq_some_iff Dialect.regex.readable_table).1 h with ⟨row, hrow, hcovers, hkind⟩
  have hrows : ∀ row ∈ regex.rows, row.2.kind? = some .groupBegin → row.1 = .ofChar '(' := by decide
  rw [hrows row hrow hkind] at hcovers
  exact ofChar_injective (Range.covers_point_iff.1 hcovers)

/-- The position of an opening parenthesis is directly behind it. -/
theorem Dialect.exists_groupBegin {pattern : String} {w : List Token} {c : Char} {p : Nat} {rest : Tokens}
    (h : Reads (Dialect.regex.tokens pattern) w (.token .groupBegin c p rest)) :
    c = '(' ∧ ∃ before behind, pattern.toList = before ++ '(' :: behind ∧ p = before.length + 1 := by
  rcases (Dialect.regex.behind_tokens pattern).of_reads h with ⟨q, hle, hreading⟩
  rcases Token.Table.reading_plain hreading.symm (by simp) with ⟨rfl, hkind, behind, hbehind⟩
  obtain rfl := Token.Table.eq_of_kind?_groupBegin hkind
  refine ⟨rfl, pattern.toList.take q, behind, ?_, by rw [List.length_take_of_le hle]⟩
  rw [← hbehind, List.take_append_drop]

/-- A text in parentheses. -/
def enclose (p : String) : String := "(" ++ p ++ ")"

/-- Any number of groups side by side are a branch. -/
theorem Dialect.exists_groups {ps : List String}
    (h : ∀ p ∈ ps, (∃ t, Dialect.regex.parse p = .ok t) ∧ Enclosable (Dialect.regex.tokens p)) :
    ∃ w b, (Dialect.regex.tokens (String.join (ps.map enclose))).word? = some w ∧ Branch.Derives 0 w b ∧
      ¬ Quantified w := by
  induction ps with
  | nil =>
      have hnil : (Dialect.regex.tokens (String.join [])).word? = some [] := by
        rw [tokens_eq_reading]
        decide
      exact ⟨[], .nil, hnil, .nil, by simp [Quantified, Token.Begins]⟩
  | cons p ps ih =>
      rcases List.forall_mem_cons.1 h with ⟨⟨⟨t, ht⟩, hp⟩, hps⟩
      rcases parse_eq_ok_iff.1 ht with ⟨u, c, hu, hc, -⟩
      rcases ih hps with ⟨w, b, hw, hb, hnot⟩
      rw [List.map_cons, String.join_cons]
      exact ⟨_, _, word?_append (word?_enclosed hu) hw, .plain (hp.derives hu hc) hnot hb,
        by simp [Quantified, Token.Begins, Quantifies]⟩

/-- Any number of groups side by side are accepted. -/
theorem Dialect.parse_groups {ps : List String}
    (h : ∀ p ∈ ps, (∃ t, Dialect.regex.parse p = .ok t) ∧ Enclosable (Dialect.regex.tokens p)) :
    ∃ t, Dialect.regex.parse (String.join (ps.map enclose)) = .ok t := by
  rcases exists_groups h with ⟨w, b, hw, hb, -⟩
  exact ⟨_, parse_eq_ok_iff.2 ⟨w, .last b, hw, .last hb, rfl⟩⟩

/-- The limit is one of open groups. A regular expression is refused for it just behind the opening parenthesis that
it would be exceeded with, and only if the limit of open groups is reached there: so never if no more groups are
open anywhere, and groups side by side are accepted however many they are. The counter of the reading functions is
the number of open groups, at the beginning of each turn and where they fail, and the calls inside of each other are
one more. The depth of the tree is bounded. -/
theorem Dialect.nesting_limit (pattern : String) :
    (∀ p, Dialect.regex.parse pattern = .error ⟨.nestingTooDeep, p⟩ ↔
      ∃ before behind rest, pattern.toList = before ++ '(' :: behind ∧ p = before.length + 1 ∧
        Opens maxDepth (Dialect.regex.tokens pattern) (.token .groupBegin '(' p rest)) ∧
    ((∀ d rest, Opens d (Dialect.regex.tokens pattern) rest → d ≤ maxDepth) →
      ∀ p, Dialect.regex.parse pattern ≠ .error ⟨.nestingTooDeep, p⟩) ∧
    (∀ ps : List String,
      (∀ p ∈ ps, (∃ t, Dialect.regex.parse p = .ok t) ∧ Enclosable (Dialect.regex.tokens p)) →
        ∃ t, Dialect.regex.parse (String.join (ps.map enclose)) = .ok t) ∧
    (∃ s, Descent.parse .regex pattern = some (Dialect.regex.parse pattern, s) ∧
      (∀ m ∈ s.turns, m.depth ≤ maxDepth ∧ m.calls = m.depth + 1 ∧
        ∀ d, Opens d (Dialect.regex.tokens pattern) m.place ↔ d = m.depth) ∧
      (∀ t, Dialect.regex.parse pattern = .ok t → s.depth = 0) ∧
      ∀ e, Dialect.regex.parse pattern = .error e →
        s.depth ≤ maxDepth ∧ ∃ rest, Opens s.depth (Dialect.regex.tokens pattern) rest ∧ Breaks s.depth rest e) ∧
    ∀ t, Dialect.regex.parse pattern = .ok t → t.depth ≤ 388 := by
  have hlimit : ∀ p, Dialect.regex.parse pattern = .error ⟨.nestingTooDeep, p⟩ ↔
      ∃ c rest, Opens maxDepth (Dialect.regex.tokens pattern) (.token .groupBegin c p rest) :=
    fun p => nestingTooDeep_iff
  refine ⟨fun p => ?_, fun hopens p herror => ?_, fun ps => parse_groups, ?_, fun t => depth_parse_le⟩
  · rw [hlimit]
    constructor
    · rintro ⟨c, rest, hopens⟩
      rcases hopens.exists_word with ⟨w, hw, -⟩
      obtain ⟨rfl, before, behind, htext, hp⟩ := exists_groupBegin hw
      exact ⟨before, behind, rest, htext, hp, hopens⟩
    · rintro ⟨before, behind, rest, -, -, hopens⟩
      exact ⟨'(', rest, hopens⟩
  · -- Behind the parenthesis, one group more is open.
    rcases (hlimit p).1 herror with ⟨c, rest, hdeep⟩
    exact absurd (hopens _ _ (.group hdeep .nil)) (Nat.not_succ_le_self maxDepth)
  · rcases Descent.parse_regex pattern with ⟨s, hrun, hafter⟩
    refine ⟨s, hrun, fun m hm => ?_, hafter.depth_of_ok, hafter.breaks⟩
    have hcounts := hafter.turns m hm
    refine ⟨hcounts.depth_le, hcounts.calls_eq, fun d => ⟨fun h => ?_, ?_⟩⟩
    · exact hcounts.opens.unique h hcounts.depth_le
    · rintro rfl
      exact hcounts.opens

/-- So many opening parentheses open as many groups. -/
theorem Dialect.opens_parentheses (n : Nat) (cs : List Char) :
    Opens n (Token.Table.regex.reading 0 (List.replicate n '(' ++ cs)) (Token.Table.regex.reading n cs) := by
  induction n generalizing cs with
  | zero =>
      exact .pattern .nil
  | succ n ih =>
      have hkind : Token.Table.regex.kind? '(' = some .groupBegin := by decide
      have hopens := ih ('(' :: cs)
      rw [Token.Table.reading] at hopens
      · simp only [hkind] at hopens
        rw [List.replicate_succ', List.append_assoc]
        exact .group hopens .nil
      · decide

/-- The limit is exceeded by one parenthesis more. -/
theorem Dialect.nesting_limit_exceeded :
    Dialect.regex.parse (String.ofList (List.replicate 129 '(')) = .error ⟨.nestingTooDeep, 129⟩ := by
  have hsplit : List.replicate 129 '(' = List.replicate 128 '(' ++ ['('] := List.replicate_succ'
  refine ((Dialect.nesting_limit _).1 129).2 ⟨List.replicate 128 '(', [], .ended 130, ?_, rfl, ?_⟩
  · rw [String.toList_ofList, hsplit]
  · rw [tokens_eq_reading, String.toList_ofList, hsplit]
    exact opens_parentheses 128 ['(']

end MaximalMunch
