import MaximalMunch.Proofs.GlobMatching
import MaximalMunch.Proofs.RegexReading

/-!
# Quoting

Every text over the alphabet can be written as a pattern that stands for this text and for nothing else. A
backslash goes before each character that has a meaning of its own somewhere in a pattern.

- `Dialect.reserved`, `Dialect.quote` : these characters, and a text with the backslashes
- `Verbatim`                          : the kinds of tokens that always stand for their character
- `Dialect.word?_quote`               : a quoted text has one such token for each of its characters
- `Dialect.parse_quote`               : a quoted text is a pattern for this word alone
-/

namespace MaximalMunch

open CodePoint Tokens

/-- The characters of a dialect that a backslash has to precede. -/
def Dialect.reserved : Dialect → List Char
  | regex => ['(', ')', '*', '+', '-', '.', '?', '[', ']', '\\', '^', '{', '|', '}']
  | glob => ['!', '*', '-', '?', '[', ']', '\\']

/-- Put a backslash before each reserved character. -/
def Dialect.quote (d : Dialect) (text : String) : String :=
  String.ofList (text.toList.flatMap fun c => if c ∈ d.reserved then ['\\', c] else [c])

/-- Tokens of these kinds stand for their character, wherever an atom may stand, and they are no quantifiers. -/
inductive Verbatim : Token.Kind → Prop where
  | escape : Verbatim .escape
  | literal : Verbatim .literal
  | comma : Verbatim .comma
  | digit : Verbatim .digit

instance : DecidablePred Verbatim := fun k =>
  decidable_of_iff (k = .escape ∨ k = .literal ∨ k = .comma ∨ k = .digit) <| by
    constructor
    · rintro (rfl | rfl | rfl | rfl) <;> constructor
    · rintro ⟨⟩ <;> simp

variable {d : Dialect} {c : Char} {cs : List Char} {k : Token.Kind} {w : List Token}

/-! ## The tokens of a quoted text -/

/-- A backslash may precede each reserved character, and then denotes it. -/
theorem Dialect.escape?_reserved (h : c ∈ d.reserved) : d.table.escape? c = some c := by
  refine (Token.Table.escape?_eq_some_iff d.readable_table).2 ⟨(c, c), ?_, rfl, rfl⟩
  cases d <;> exact List.mem_append_left _ (List.mem_map.2 ⟨c, h, rfl⟩)

/-- Each row of the table with a token of another kind is that of one reserved character. -/
theorem Dialect.verbatim_or_reserved (d : Dialect) :
    ∀ row ∈ d.table.rows, (∀ k ∈ row.2.kind?, Verbatim k) ∨ row.1 ∈ d.reserved.map .ofChar := by
  cases d <;> decide

theorem Dialect.kind?_unreserved (hc : CharInAlphabet c) (h : c ∉ d.reserved) :
    ∃ k, d.table.kind? c = some k ∧ Verbatim k := by
  have hback : c ≠ '\\' := by
    rintro rfl
    exact h (by cases d <;> decide)
  obtain ⟨k, hk⟩ := (d.exists_kind_iff c).2 ⟨hc, hback⟩
  obtain ⟨row, hrow, hcovers, hkind⟩ := (Token.Table.kind?_eq_some_iff d.readable_table).1 hk
  refine ⟨k, hk, ?_⟩
  rcases d.verbatim_or_reserved row hrow with hverbatim | hone
  · exact hverbatim k hkind
  · -- The row of a reserved character covers no other one.
    rcases List.mem_map.1 hone with ⟨x, hx, hrange⟩
    rw [← hrange] at hcovers
    obtain rfl := ofChar_injective (Range.covers_point_iff.1 hcovers)
    exact absurd hx h

/-- Each character of a text becomes one token. -/
theorem Dialect.word?_reading_quote (p : Nat) (h : ∀ c ∈ cs, CharInAlphabet c) :
    ∃ w, (d.table.reading p (cs.flatMap fun c => if c ∈ d.reserved then ['\\', c] else [c])).word? = some w ∧
      w.map Token.char = cs ∧ ∀ t ∈ w, Verbatim t.kind := by
  induction cs generalizing p with
  | nil =>
      exact ⟨[], rfl, rfl, by simp⟩
  | cons c cs ih =>
      rcases List.forall_mem_cons.1 h with ⟨hc, hcs⟩
      rw [List.flatMap_cons]
      by_cases hreserved : c ∈ d.reserved
      · rcases ih (p + 2) hcs with ⟨w, hw, hchars, hkinds⟩
        refine ⟨⟨.escape, c⟩ :: w, ?_, by simp [hchars], List.forall_mem_cons.2 ⟨.escape, hkinds⟩⟩
        rw [if_pos hreserved, List.cons_append, List.cons_append, List.nil_append, Token.Table.reading]
        simp only [escape?_reserved hreserved]
        rw [word?, hw]
        rfl
      · rcases ih (p + 1) hcs with ⟨w, hw, hchars, hkinds⟩
        rcases kind?_unreserved hc hreserved with ⟨k, hk, hverbatim⟩
        refine ⟨⟨k, c⟩ :: w, ?_, by simp [hchars], List.forall_mem_cons.2 ⟨hverbatim, hkinds⟩⟩
        rw [if_neg hreserved, List.singleton_append, Token.Table.reading]
        · simp only [hk]
          rw [word?, hw]
          rfl
        · rintro rfl
          exact hreserved (by cases d <;> decide)

theorem Dialect.word?_quote {text : String} (h : ∀ c ∈ text.toList, CharInAlphabet c) :
    ∃ w, (d.tokens (d.quote text)).word? = some w ∧ w.map Token.char = text.toList ∧
      ∀ t ∈ w, Verbatim t.kind := by
  rw [tokens_eq_reading, quote, String.toList_ofList]
  exact word?_reading_quote 0 h

/-! ## The tree of a quoted text -/

/-- Such tokens are literals of a regular expression, whatever follows them. -/
theorem Verbatim.literal_zero (h : Verbatim k) : Regex.Literal 0 k := by
  cases h <;> constructor <;> simp

theorem Verbatim.not_quantifies (h : Verbatim k) : ¬ Regex.Quantifies k := by
  cases h <;> simp [Regex.Quantifies]

/-- The branch of so many literals. -/
def Regex.literals : List Char → Regex.Branch
  | [] => .nil
  | c :: cs => .cons (.literal c) none (literals cs)

theorem Regex.terms_literals (cs : List Char) : (Regex.literals cs).terms = cs.map Tree.char := by
  induction cs with
  | nil =>
      rfl
  | cons c cs ih =>
      rw [Regex.literals, Regex.Branch.terms, ih]
      rfl

theorem Regex.derives_literals (h : ∀ t ∈ w, Verbatim t.kind) :
    (Regex.literals (w.map Token.char)).Derives 0 w := by
  induction w with
  | nil =>
      exact .nil
  | cons t w ih =>
      rcases List.forall_mem_cons.1 h with ⟨ht, hw⟩
      refine .plain (u := [t]) (.literal ht.literal_zero) ?_ (ih hw)
      rintro ⟨k, hk, hbegins⟩
      rcases Option.map_eq_some_iff.1 hbegins with ⟨t', ht', rfl⟩
      exact (hw t' (List.mem_of_head? ht')).not_quantifies hk

theorem Glob.written_chars (h : ∀ t ∈ w, Verbatim t.kind) :
    Glob.Written w (w.map fun t => .char t.char) := by
  induction w with
  | nil =>
      exact .nil
  | cons t w ih =>
      rcases List.forall_mem_cons.1 h with ⟨ht, hw⟩
      have hkind : t.kind ≠ .zeroOrMore ∧ t.kind ≠ .wildcard ∧ t.kind ≠ .classBegin := by
        generalize t.kind = k at ht
        cases ht <;> simp
      exact .char hkind.1 hkind.2.1 hkind.2.2 (ih hw)

/-- In both dialects, tokens that stand for their characters make a sequence of these characters. -/
theorem Dialect.treeOf_verbatim {ts : Tokens} (hw : ts.word? = some w) (h : ∀ t ∈ w, Verbatim t.kind) :
    d.treeOf ts = .ok (Tree.seqOf ((w.map Token.char).map Tree.char)) := by
  cases d with
  | regex =>
      refine Regex.parse_eq_ok_iff.2 ⟨w, _, hw, .last (Regex.derives_literals h), ?_⟩
      rw [Regex.Choice.tree, Regex.Choice.branches, Regex.terms_literals]
      rfl
  | glob =>
      refine Glob.parse_eq_ok_iff.2 ⟨w, _, hw, Glob.written_chars h, ?_⟩
      rw [List.map_map, List.map_map]
      rfl

/-! ## The word of a quoted text -/

/-- A quoted text over the alphabet is a pattern, and the only word of its tree is the text. -/
theorem Dialect.parse_quote (d : Dialect) (text : String) (h : ∀ c ∈ text.toList, CharInAlphabet c) :
    ∃ t, d.parse (d.quote text) = .ok t ∧ ∀ u, t.Spells u ↔ u = text.toList.map ofChar := by
  rcases word?_quote h with ⟨w, hw, hchars, hverbatim⟩
  refine ⟨_, treeOf_verbatim hw hverbatim, fun u => ?_⟩
  rw [hchars]
  exact Tree.spells_chars_iff

/-- For a text of characters that have a meaning elsewhere. -/
theorem Dialect.parse_quote_quantifiers :
    Dialect.regex.quote "*\x7b2)\\" = "\\*\\\x7b2\\)\\\\" ∧ (∀ c ∈ "*\x7b2)\\".toList, CharInAlphabet c) ∧
      ∃ t, Dialect.regex.parse (Dialect.regex.quote "*\x7b2)\\") = .ok t ∧
        ∀ u, t.Spells u ↔ u = "*\x7b2)\\".toList.map ofChar := by
  have halphabet : ∀ c ∈ "*\x7b2)\\".toList, CharInAlphabet c := by
    have hall : ("*\x7b2)\\".toList.all fun c => ofChar c ≤ greatest) = true := by decide
    intro c hc
    exact of_decide_eq_true (List.all_eq_true.1 hall c hc)
  exact ⟨by decide, halphabet, Dialect.parse_quote .regex _ halphabet⟩

end MaximalMunch
