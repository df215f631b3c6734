import MaximalMunch.Proofs.BoundsReading
import MaximalMunch.Proofs.OpenGroups

/-!
# Composing regular expressions

Regular expressions are put together from texts: two of them with a bar between stand for the words of either, and
in parentheses they can be put one behind the other or repeated. In parentheses a text keeps its tree if all of its
closing parentheses close a group, and there is room for one more group around it.

- `Dialect.word?_append`      : texts of whole tokens one behind the other
- `Regex.Choice.append`       : two choices with a bar between
- `Regex.Enclosable`          : what may stand in parentheses
- `Regex.choice_enclosed`     : this is derived inside of a group as it is outside
- `Regex.Repeats`             : how repetitions are written
- `Dialect.regex_composition` : all this for texts
-/

namespace MaximalMunch

open CodePoint Tokens

variable {d : Dialect} {p q : String} {u v w : List Token}

/-! ## Texts one behind the other -/

namespace Token.Table

variable {t : Table}

/-- The tokens of a text do not depend on where it begins. -/
theorem word?_reading (m n : Nat) (cs : List Char) : (t.reading m cs).word? = (t.reading n cs).word? := by
  fun_induction reading t m cs generalizing n with
  | case1 | case2 => rfl
  | case3 m x rest y hy ih =>
      simp only [reading, hy, word?, ih (n + 2)]
  | case4 m x rest hnone =>
      simp only [reading, hnone, word?]
  | case5 m c rest hc k hk ih =>
      simp only [reading, hk, word?, ih (n + 1)]
  | case6 m c rest hc hnone =>
      simp only [reading, hnone, word?]

theorem word?_reading_append {m n : Nat} {cs cs' : List Char} (h : (t.reading m cs).word? = some u)
    (h' : (t.reading n cs').word? = some v) : (t.reading m (cs ++ cs')).word? = some (u ++ v) := by
  fun_induction reading t m cs generalizing u with
  | case1 m =>
      obtain rfl := Option.some.inj h
      rw [List.nil_append, List.nil_append, word?_reading m n, h']
  | case2 | case4 | case6 => exact absurd h (by simp [word?])
  | case3 m x rest y hy ih =>
      rcases Option.map_eq_some_iff.1 h with ⟨u, hu, rfl⟩
      simp only [List.cons_append, reading, hy, word?, ih hu]
      rfl
  | case5 m c rest hc k hk ih =>
      rcases Option.map_eq_some_iff.1 h with ⟨u, hu, rfl⟩
      simp only [List.cons_append, reading, hk, word?, ih hu]
      rfl

end Token.Table

/-- Behind a text of whole tokens, the tokens of another one follow. -/
theorem Dialect.word?_append (h : (d.tokens p).word? = some u) (h' : (d.tokens q).word? = some v) :
    (d.tokens (p ++ q)).word? = some (u ++ v) := by
  rw [tokens_eq_reading] at h h' ⊢
  rw [String.toList_append]
  exact Token.Table.word?_reading_append h h'

/-! ## Two choices -/

theorem Tree.spells_choiceOf_iff {ts : List Tree} {w : List Int} :
    (choiceOf ts).Spells w ↔ ∃ t ∈ ts, t.Spells w := by
  unfold choiceOf
  split
  · simp
  · exact spells_choice_iff

theorem Tree.spells_repeatOf_iff {t : Tree} {min : Nat} {max : Option Nat} {w : List Int} :
    (repeatOf t min max).Spells w ↔ ∃ k, min ≤ k ∧ (∀ m, max = some m → k ≤ m) ∧ t.Power k w := by
  unfold repeatOf
  split
  · rename_i honce
    obtain ⟨rfl, rfl⟩ := honce
    constructor
    · intro h
      exact ⟨1, Nat.le_refl 1, by simp, power_one_iff.2 h⟩
    · rintro ⟨k, hmin, hmax, hpower⟩
      obtain rfl : k = 1 := Nat.le_antisymm (hmax 1 rfl) hmin
      exact power_one_iff.1 hpower
  · exact spells_repetition_iff

namespace Regex

/-- The branches of one choice, and then those of another one. -/
def Choice.append : Choice → Choice → Choice
  | .last b, c => .bar b c
  | .bar b more, c => .bar b (more.append c)

theorem Choice.branches_append (c c' : Choice) : (c.append c').branches = c.branches ++ c'.branches := by
  fun_induction Choice.append c c' with
  | case1 => rfl
  | case2 b more c' ih =>
      rw [branches, branches, ih]
      rfl

theorem Choice.Derives.append {n : Nat} {c c' : Choice} {t : Token} (h : c.Derives n u)
    (ht : t.kind = .alternative) (h' : c'.Derives n v) : (c.append c').Derives n (u ++ t :: v) := by
  fun_induction Choice.append c c' generalizing u with
  | case1 =>
      cases h with
      | last hb => exact .bar hb ht h'
  | case2 b more c' ih =>
      cases h with
      | bar hb hbar hmore =>
          rw [List.append_assoc, List.cons_append]
          exact .bar hb hbar (ih hmore h')

/-! ## Inside of a group -/

/-- Every closing parenthesis outside of classes closes a group, and fewer groups are open anywhere than there may
be. -/
structure Enclosable (ts : Tokens) : Prop where
  closed : ∀ c p rest, ¬ Opens 0 ts (token .groupEnd c p rest)
  shallow : ∀ n rest, Opens n ts rest → n + 1 ≤ maxDepth

variable {n : Nat} {ts₀ ts mid rest : Tokens}

theorem Enclosable.literal {k : Token.Kind} {c : Char} {p : Nat} (hts : Enclosable ts₀)
    (hopens : Opens n ts₀ (token k c p ts)) (h : Literal n k) : Literal (n + 1) k where
  ne_wildcard := h.ne_wildcard
  ne_classBegin := h.ne_classBegin
  ne_groupBegin := h.ne_groupBegin
  ne_alternative := h.ne_alternative
  ne_groupEnd := by
    rintro - rfl
    -- A closing parenthesis that stands for itself would close no group.
    cases n with
    | zero => exact hts.closed _ _ _ hopens
    | succ n => exact h.ne_groupEnd (Nat.succ_pos n) rfl

-- By recursion on the derivation, which is followed from place to place.
mutual

theorem choice_enclosed {n : Nat} {ts rest : Tokens} {w : List Token} (hts : Enclosable ts₀) :
    (c : Choice) → c.Derives n w → Opens n ts₀ ts → Reads ts w rest → Unquantified rest →
      c.Derives (n + 1) w
  | .last b, h, hopens, hreads, hrest => by
      cases h with
      | last hb => exact .last (branch_enclosed hts b hb hopens hreads hrest).1
  | .bar b more, h, hopens, hreads, hrest => by
      cases h with
      | bar hb ht hc =>
          rcases reads_append_iff.1 hreads with ⟨mid, hreads, hmid⟩
          rcases reads_cons_iff.1 hmid with ⟨p, ts', rfl, hmore⟩
          rw [ht] at hreads
          have hbar : ¬ Quantifies .alternative := by simp [Quantifies]
          rcases branch_enclosed hts b hb hopens hreads (unquantified_token hbar) with ⟨hb', hopens'⟩
          exact .bar hb' ht (choice_enclosed hts more hc (hopens'.terms (.bar .nil)) hmore hrest)

theorem branch_enclosed {n : Nat} {ts rest : Tokens} {w : List Token} (hts : Enclosable ts₀) :
    (b : Branch) → b.Derives n w → Opens n ts₀ ts → Reads ts w rest → Unquantified rest →
      b.Derives (n + 1) w ∧ Opens n ts₀ rest
  | .nil, h, hopens, hreads, hrest => by
      cases h with
      | nil =>
          obtain rfl := reads_nil_iff.1 hreads
          exact ⟨.nil, hopens⟩
  | .cons a none more, h, hopens, hreads, hrest => by
      cases h with
      | plain ha hnot hb =>
          rcases reads_append_iff.1 hreads with ⟨mid, hatom, hmore⟩
          have hsuffix : Suffix mid none mid := .plain (unquantified_of_reads hmore hnot hrest)
          have hopens' := hopens.terms (.term ha hatom hsuffix .nil)
          rcases branch_enclosed hts more hb hopens' hmore hrest with ⟨hb', hend⟩
          exact ⟨.plain (atom_enclosed hts a ha hopens hatom) hnot hb', hend⟩
  | .cons a (some q) more, h, hopens, hreads, hrest => by
      cases h with
      | quantified ha hq hb =>
          rcases reads_append_iff.1 hreads with ⟨mid, hatom, hreads⟩
          rcases reads_append_iff.1 hreads with ⟨mid', hquant, hmore⟩
          have hopens' := hopens.terms (.term ha hatom (.quantified hq hquant) .nil)
          rcases branch_enclosed hts more hb hopens' hmore hrest with ⟨hb', hend⟩
          exact ⟨.quantified (atom_enclosed hts a ha hopens hatom) hq hb', hend⟩

theorem atom_enclosed {n : Nat} {ts mid : Tokens} {w : List Token} (hts : Enclosable ts₀) :
    (a : Atom) → a.Derives n w → Opens n ts₀ ts → Reads ts w mid → a.Derives (n + 1) w
  | .wildcard, h, hopens, hreads => by
      cases h with
      | wildcard ht => exact .wildcard ht
  | .literal c, h, hopens, hreads => by
      cases h with
      | literal hl =>
          rcases reads_cons_iff.1 hreads with ⟨p, ts', rfl, -⟩
          exact .literal (hts.literal hopens hl)
  | .characterClass l, h, hopens, hreads => by
      cases h with
      | characterClass ht hclass => exact .characterClass ht hclass
  | .group c, h, hopens, hreads => by
      cases h with
      | group ht _ hc hend =>
          rcases reads_cons_iff.1 hreads with ⟨p, ts', rfl, hbehind⟩
          rcases reads_append_iff.1 hbehind with ⟨mid', hinside, hmid⟩
          rcases reads_cons_iff.1 hmid with ⟨p', ts'', rfl, -⟩
          rw [ht] at hopens
          have hopens' : Opens (n + 1) ts₀ ts' := .group hopens .nil
          have hc' := choice_enclosed hts c hc hopens' hinside (unquantified_token (by simp [hend, Quantifies]))
          exact .group ht (hts.shallow _ _ hopens') hc' hend

end

/-- Each open group takes a token. -/
theorem Opens.add_length_le (h : Opens n ts rest) : n + rest.length ≤ ts.length := by
  have hterms : ∀ {d : Nat} {ts rest : Tokens}, Terms d ts rest → rest.length ≤ ts.length := by
    intro d ts rest h
    rcases h.exists_word with ⟨w, hw, -⟩
    exact Nat.le.intro ((Nat.add_comm _ _).trans hw.length_eq.symm)
  induction h with
  | pattern h =>
      rw [Nat.zero_add]
      exact hterms h
  | group _ h ih =>
      have hinner := hterms h
      simp only [length] at ih
      omega

/-- A short text leaves room for a group around it. -/
theorem Opens.lt_maxDepth (h : Opens n ts rest) (hts : ts.length < maxDepth) : n < maxDepth :=
  Nat.lt_of_le_of_lt (Nat.le_of_add_right_le h.add_length_le) hts

/-- What is accepted and may stand in parentheses is derived between them. -/
theorem Enclosable.derives {c : Choice} (hts : Enclosable ts₀) (hw : ts₀.word? = some w) (hc : c.Derives 0 w) :
    (Atom.group c).Derives 0 (⟨.groupBegin, '('⟩ :: (w ++ [⟨.groupEnd, ')'⟩])) := by
  rcases word?_eq_some_iff.1 hw with ⟨p, hreads⟩
  have hend : Unquantified (.ended p) := by simp [Unquantified, kind?]
  exact .group rfl (by decide) (choice_enclosed hts c hc (.pattern .nil) hreads hend) rfl

/-! ## Repetitions -/

/-- A number that fits a word, as a run of digits. -/
structure Numeral (cs : List Char) : Prop where
  ne_nil : cs ≠ []
  digits : ∀ c ∈ cs, '0' ≤ c ∧ c ≤ '9'
  lt : Bounds.decimal cs < Word.limit

/-- How the repetitions between a least and a greatest number are written. -/
inductive Repeats : List Char → Nat → Option Nat → Prop where
  | zeroOrMore : Repeats ['*'] 0 none
  | oneOrMore : Repeats ['+'] 1 none
  | zeroOrOne : Repeats ['?'] 0 (some 1)
  | exactly {cs : List Char} :
      Numeral cs → Repeats ('{' :: (cs ++ ['}'])) (Bounds.decimal cs) (some (Bounds.decimal cs))
  | atLeast {cs : List Char} : Numeral cs → Repeats ('{' :: (cs ++ [',', '}'])) (Bounds.decimal cs) none
  | atMost {ds : List Char} : Numeral ds → Repeats ('{' :: ',' :: (ds ++ ['}'])) 0 (some (Bounds.decimal ds))
  | between {cs ds : List Char} :
      Numeral cs → Numeral ds → Bounds.decimal cs ≤ Bounds.decimal ds →
        Repeats ('{' :: (cs ++ ',' :: (ds ++ ['}']))) (Bounds.decimal cs) (some (Bounds.decimal ds))

theorem kind?_digit {c : Char} (h : '0' ≤ c ∧ c ≤ '9') : Token.Table.regex.kind? c = some .digit := by
  have hrow : Token.Table.span '0' '9' (.plain .digit) ∈ Token.Table.regex.rows := by decide
  have hcovers : (Token.Table.span '0' '9' (.plain .digit)).1.Covers (ofChar c) :=
    ⟨ofChar_le_iff.2 h.1, ofChar_le_iff.2 h.2⟩
  exact (Token.Table.kind?_eq_some_iff Dialect.regex.readable_table).2 ⟨_, hrow, hcovers, rfl⟩

theorem word?_digits {cs : List Char} (h : ∀ c ∈ cs, '0' ≤ c ∧ c ≤ '9') (p : Nat) :
    (Token.Table.regex.reading p cs).word? = some (Bounds.digits cs) := by
  induction cs generalizing p with
  | nil =>
      rfl
  | cons c cs ih =>
      rcases List.forall_mem_cons.1 h with ⟨hc, hcs⟩
      have hback : c ≠ '\\' := by
        rintro rfl
        exact absurd hc (by decide)
      rw [Token.Table.reading]
      · simp only [kind?_digit hc]
        rw [word?, ih hcs]
        rfl
      · exact hback

/-- Bounds behind an opening brace are a quantifier. -/
theorem exists_bounds {min : Nat} {max : Option Nat} (h : Bounds.Denotes w min max) :
    ∃ q : Quantifier, q.Derives (⟨.repeatBegin, '{'⟩ :: w) ∧ ∀ t, q.tree t = Tree.repeatOf t min max := by
  rcases Bounds.denotes_iff.1 h with ⟨s, hw, hs, rfl, rfl⟩
  exact ⟨.bounds s, .bounds rfl hw hs, fun _ => rfl⟩

/-- A repetition is written as one quantifier. -/
theorem Repeats.exists_quantifier {cs : List Char} {min : Nat} {max : Option Nat} (h : Repeats cs min max) :
    ∃ (w : List Token) (q : Quantifier), (Token.Table.regex.reading 0 cs).word? = some w ∧ q.Derives w ∧
      ∀ t, q.tree t = Tree.repeatOf t min max := by
  have hopen : (Token.Table.regex.reading 0 ['{']).word? = some [⟨.repeatBegin, '{'⟩] := by decide
  have hcomma : (Token.Table.regex.reading 0 [',']).word? = some [⟨.comma, ','⟩] := by decide
  have hclose : (Token.Table.regex.reading 0 ['}']).word? = some [⟨.repeatEnd, '}'⟩] := by decide
  have hc : (Token.mk .comma ',').kind = .comma := rfl
  have hb : (Token.mk .repeatEnd '}').kind = .repeatEnd := rfl
  cases h with
  | zeroOrMore =>
      exact ⟨[⟨.zeroOrMore, '*'⟩], .zeroOrMore, by decide, .zeroOrMore rfl, fun _ => rfl⟩
  | oneOrMore =>
      exact ⟨[⟨.oneOrMore, '+'⟩], .oneOrMore, by decide, .oneOrMore rfl, fun _ => rfl⟩
  | zeroOrOne =>
      exact ⟨[⟨.zeroOrOne, '?'⟩], .zeroOrOne, by decide, .zeroOrOne rfl, fun _ => rfl⟩
  | @exactly cs hcs =>
      rcases exists_bounds (.exactly hb hcs.lt) with ⟨q, hq, htree⟩
      have hword := Token.Table.word?_reading_append (word?_digits hcs.digits 0) hclose
      exact ⟨_, q, Token.Table.word?_reading_append hopen hword, hq, htree⟩
  | @atLeast cs hcs =>
      rcases exists_bounds (.atLeast hc hb hcs.lt) with ⟨q, hq, htree⟩
      have hends := Token.Table.word?_reading_append hcomma hclose
      have hword := Token.Table.word?_reading_append (word?_digits hcs.digits 0) hends
      exact ⟨_, q, Token.Table.word?_reading_append hopen hword, hq, htree⟩
  | @atMost ds hds =>
      -- A missing least number is zero.
      have hle : Bounds.decimal [] ≤ Bounds.decimal ds := Nat.zero_le _
      rcases exists_bounds (.between hc hb hds.ne_nil hds.lt hle) with ⟨q, hq, htree⟩
      have hword := Token.Table.word?_reading_append (word?_digits hds.digits 0) hclose
      have hbehind := Token.Table.word?_reading_append hcomma hword
      exact ⟨_, q, Token.Table.word?_reading_append hopen hbehind, hq, htree⟩
  | @between cs ds hcs hds hle =>
      rcases exists_bounds (.between hc hb hds.ne_nil hds.lt hle) with ⟨q, hq, htree⟩
      have hword := Token.Table.word?_reading_append (word?_digits hds.digits 0) hclose
      have hbehind := Token.Table.word?_reading_append hcomma hword
      have hbounds := Token.Table.word?_reading_append (word?_digits hcs.digits 0) hbehind
      exact ⟨_, q, Token.Table.word?_reading_append hopen hbounds, hq, htree⟩

end Regex

/-! ## Texts -/

open Regex

variable {t u : Tree}

/-- The tokens of a text in parentheses. -/
theorem Dialect.word?_enclosed (hw : (Dialect.regex.tokens p).word? = some w) :
    (Dialect.regex.tokens ("(" ++ p ++ ")")).word? = some (⟨.groupBegin, '('⟩ :: (w ++ [⟨.groupEnd, ')'⟩])) := by
  have hopen : (Dialect.regex.tokens "(").word? = some [⟨.groupBegin, '('⟩] := by
    rw [tokens_eq_reading]
    decide
  have hclose : (Dialect.regex.tokens ")").word? = some [⟨.groupEnd, ')'⟩] := by
    rw [tokens_eq_reading]
    decide
  exact word?_append (word?_append hopen hw) hclose

/-- A bar makes the words of either text. -/
theorem Dialect.parse_bar (hp : Dialect.regex.parse p = .ok t) (hq : Dialect.regex.parse q = .ok u) :
    ∃ v, Dialect.regex.parse (p ++ "|" ++ q) = .ok v ∧ ∀ w, v.Spells w ↔ t.Spells w ∨ u.Spells w := by
  rcases parse_eq_ok_iff.1 hp with ⟨w, c, hw, hc, rfl⟩
  rcases parse_eq_ok_iff.1 hq with ⟨w', c', hw', hc', rfl⟩
  have hbar : (Dialect.regex.tokens "|").word? = some [⟨.alternative, '|'⟩] := by
    rw [tokens_eq_reading]
    decide
  have hword := word?_append (word?_append hw hbar) hw'
  rw [List.append_assoc] at hword
  refine ⟨_, parse_eq_ok_iff.2 ⟨_, _, hword, hc.append rfl hc', rfl⟩, fun x => ?_⟩
  simp only [Choice.tree, Tree.spells_choiceOf_iff, Choice.branches_append, List.mem_append, or_and_right,
    exists_or]

/-- Parentheses around a text keep its tree. -/
theorem Dialect.parse_enclosed (hp : Dialect.regex.parse p = .ok t) (h : Enclosable (Dialect.regex.tokens p)) :
    Dialect.regex.parse ("(" ++ p ++ ")") = .ok t := by
  rcases parse_eq_ok_iff.1 hp with ⟨w, c, hw, hc, rfl⟩
  have hbranch := Branch.Derives.plain (h.derives hw hc) (by simp [Quantified, Token.Begins]) .nil
  rw [List.append_nil] at hbranch
  exact parse_eq_ok_iff.2 ⟨_, _, word?_enclosed hw, .last hbranch, rfl⟩

/-- A quantifier behind the parentheses repeats the words of the text. -/
theorem Dialect.parse_repeated (hp : Dialect.regex.parse p = .ok t) (h : Enclosable (Dialect.regex.tokens p))
    {cs : List Char} {min : Nat} {max : Option Nat} (hcs : Repeats cs min max) :
    ∃ v, Dialect.regex.parse ("(" ++ p ++ ")" ++ String.ofList cs) = .ok v ∧
      ∀ w, v.Spells w ↔ ∃ k, min ≤ k ∧ (∀ m, max = some m → k ≤ m) ∧ t.Power k w := by
  rcases parse_eq_ok_iff.1 hp with ⟨w, c, hw, hc, rfl⟩
  rcases hcs.exists_quantifier with ⟨x, q, hx, hq, htree⟩
  have hquant : (Dialect.regex.tokens (String.ofList cs)).word? = some x := by
    rw [tokens_eq_reading, String.toList_ofList]
    exact hx
  have hbranch := Branch.Derives.quantified (h.derives hw hc) hq .nil
  rw [List.append_nil] at hbranch
  refine ⟨_, parse_eq_ok_iff.2 ⟨_, _, word?_append (word?_enclosed hw) hquant, .last hbranch, rfl⟩, fun y => ?_⟩
  have hrepeat : (Choice.last (.cons (.group c) (some q) .nil)).tree = Tree.repeatOf c.tree min max := htree _
  rw [hrepeat, Tree.spells_repeatOf_iff]

/-- Two texts in parentheses make the words of one and then the other. -/
theorem Dialect.parse_juxtaposed (hp : Dialect.regex.parse p = .ok t) (hq : Dialect.regex.parse q = .ok u)
    (h : Enclosable (Dialect.regex.tokens p)) (h' : Enclosable (Dialect.regex.tokens q)) :
    ∃ v, Dialect.regex.parse ("(" ++ p ++ ")" ++ ("(" ++ q ++ ")")) = .ok v ∧
      ∀ w, v.Spells w ↔ ∃ a b, w = a ++ b ∧ t.Spells a ∧ u.Spells b := by
  rcases parse_eq_ok_iff.1 hp with ⟨w, c, hw, hc, rfl⟩
  rcases parse_eq_ok_iff.1 hq with ⟨w', c', hw', hc', rfl⟩
  have hsecond := Branch.Derives.plain (h'.derives hw' hc') (by simp [Quantified, Token.Begins]) .nil
  have hbranch := Branch.Derives.plain (h.derives hw hc) (by simp [Quantified, Token.Begins, Quantifies]) hsecond
  rw [List.append_nil] at hbranch
  refine ⟨_, parse_eq_ok_iff.2 ⟨_, _, word?_append (word?_enclosed hw) (word?_enclosed hw'), .last hbranch, rfl⟩,
    fun y => ?_⟩
  have hsequence : (Choice.last (.cons (.group c) none (.cons (.group c') none .nil))).tree =
      .sequence [c.tree, c'.tree] := rfl
  rw [hsequence, Tree.spells_sequence_cons_iff]
  simp only [Tree.spells_sequence_cons_iff, Tree.spells_sequence_nil_iff]
  constructor
  · rintro ⟨a, b, rfl, ha, b', x, rfl, hb, rfl⟩
    exact ⟨a, b', by rw [List.append_nil], ha, hb⟩
  · rintro ⟨a, b, rfl, ha, hb⟩
    exact ⟨a, b, rfl, ha, b, [], (List.append_nil b).symm, hb, rfl⟩

/-- Regular expressions compose. With a bar between, two of them stand for the words of either. In parentheses, if
no closing parenthesis is left over and there is room for a group, each keeps its tree, they can be put one behind
the other, and what is in parentheses can be repeated. -/
theorem Dialect.regex_composition (hp : Dialect.regex.parse p = .ok t) (hq : Dialect.regex.parse q = .ok u) :
    (∃ v, Dialect.regex.parse (p ++ "|" ++ q) = .ok v ∧ ∀ w, v.Spells w ↔ t.Spells w ∨ u.Spells w) ∧
    (Enclosable (Dialect.regex.tokens p) →
      Dialect.regex.parse ("(" ++ p ++ ")") = .ok t ∧
      (∀ cs min max, Repeats cs min max →
        ∃ v, Dialect.regex.parse ("(" ++ p ++ ")" ++ String.ofList cs) = .ok v ∧
          ∀ w, v.Spells w ↔ ∃ k, min ≤ k ∧ (∀ m, max = some m → k ≤ m) ∧ t.Power k w) ∧
      (Enclosable (Dialect.regex.tokens q) →
        ∃ v, Dialect.regex.parse ("(" ++ p ++ ")" ++ ("(" ++ q ++ ")")) = .ok v ∧
          ∀ w, v.Spells w ↔ ∃ a b, w = a ++ b ∧ t.Spells a ∧ u.Spells b)) := by
  refine ⟨parse_bar hp hq, fun h => ⟨parse_enclosed hp h, fun cs min max hcs => ?_, fun h' => ?_⟩⟩
  · exact parse_repeated hp h hcs
  · exact parse_juxtaposed hp hq h h'

/-- For a group and a choice. -/
theorem Dialect.regex_composition_group :
    ∃ t u, Dialect.regex.parse "(a)" = .ok t ∧ Dialect.regex.parse "b|c" = .ok u ∧
      (∃ v, Dialect.regex.parse "(a)|b|c" = .ok v ∧ ∀ w, v.Spells w ↔ t.Spells w ∨ u.Spells w) ∧
      Dialect.regex.parse "((a))" = .ok t ∧
      (∃ v, Dialect.regex.parse "((a))\x7b2,3\x7d" = .ok v ∧
        ∀ w, v.Spells w ↔ ∃ k, 2 ≤ k ∧ (∀ m, some 3 = some m → k ≤ m) ∧ t.Power k w) ∧
      ∃ v, Dialect.regex.parse "((a))(b|c)" = .ok v ∧
        ∀ w, v.Spells w ↔ ∃ a b, w = a ++ b ∧ t.Spells a ∧ u.Spells b := by
  have hgroup : Dialect.regex.tokens "(a)" =
      .token .groupBegin '(' 1 (.token .literal 'a' 2 (.token .groupEnd ')' 3 (.ended 4))) :=
    (tokens_eq_reading _ _).trans (by decide)
  have hchoice : Dialect.regex.tokens "b|c" =
      .token .literal 'b' 1 (.token .alternative '|' 2 (.token .literal 'c' 3 (.ended 4))) :=
    (tokens_eq_reading _ _).trans (by decide)
  have hp : Dialect.regex.parse "(a)" = .ok (Tree.char 'a') := by
    rw [Dialect.parse, hgroup]
    simp [Dialect.treeOf, Regex.parse, read_token, Regex.read, step, State.add, quantified, maxDepth, Level.push,
      Level.nextBranch, Level.tree, Tree.seqOf, Tree.choiceOf, Except.bind]
  have hq : Dialect.regex.parse "b|c" = .ok (.choice [Tree.char 'b', Tree.char 'c']) := by
    rw [Dialect.parse, hchoice]
    simp [Dialect.treeOf, Regex.parse, read_token, Regex.read, step, State.add, quantified, Level.push,
      Level.nextBranch, Level.tree, Tree.seqOf, Tree.choiceOf, Except.bind]
  have hp' : Enclosable (Dialect.regex.tokens "(a)") := by
    rw [hgroup]
    refine ⟨fun c p rest h => ?_, fun n rest h => ?_⟩
    · -- The only closing parenthesis stands where a group is open.
      rcases h.exists_word with ⟨w, hw, -⟩
      have hopens : Opens 1 (.token .groupBegin '(' 1 (.token .literal 'a' 2 (.token .groupEnd ')' 3 (.ended 4))))
          (.token .groupEnd ')' 3 (.ended 4)) := by
        have ha : (Atom.literal 'a').Derives 1 [⟨.literal, 'a'⟩] := .literal (by constructor <;> simp)
        exact .group (.pattern .nil)
          (.term ha (.cons .nil) (.plain (unquantified_token (by simp [Quantifies]))) .nil)
      cases hw with
      | cons hw =>
          cases hw with
          | cons hw =>
              cases hw with
              | nil => exact absurd (h.unique hopens (Nat.zero_le _)) (by decide)
              | cons hw => cases hw
    · exact h.lt_maxDepth (by decide)
  have hq' : Enclosable (Dialect.regex.tokens "b|c") := by
    rw [hchoice]
    refine ⟨fun c p rest h => ?_, fun n rest h => ?_⟩
    · rcases h.exists_word with ⟨w, hw, -⟩
      cases hw with
      | cons hw =>
          cases hw with
          | cons hw =>
              cases hw with
              | cons hw => cases hw
    · exact h.lt_maxDepth (by decide)
  rcases Dialect.regex_composition hp hq with ⟨hbar, hparens⟩
  rcases hparens hp' with ⟨hsame, hrepeat, hbehind⟩
  have htwo : Numeral ['2'] := ⟨by simp, by simp, by decide⟩
  have hthree : Numeral ['3'] := ⟨by simp, by simp, by decide⟩
  exact ⟨_, _, hp, hq, hbar, hsame, hrepeat _ _ _ (.between htwo hthree (by decide)), hbehind hq'⟩

end MaximalMunch
