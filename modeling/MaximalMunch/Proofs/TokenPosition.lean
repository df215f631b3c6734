import MaximalMunch.Proofs.TokenReading
import MaximalMunch.Proofs.TokenWord

/-!
# Positions of tokens

The position of a token is the number of characters of the pattern up to and including it, wherever in the chain
of tokens it stands. The end of the pattern counts as one character, and where the rest of the pattern is no token
the position is the number of characters before it.

- `Tokens.ReadsTo`          : some tokens in front, with the position behind the last of them
- `Tokens.Reads.unique`     : the tokens between two places of a chain
- `Dialect.Behind`          : the tokens behind the first characters of a pattern
- `Dialect.Placed`          : a chain that begins with a token at its position
- `Dialect.placed_of_reads` : what is read off a pattern is placed
- `Dialect.isDigit_of_reads` : digits are what their kind says
-/

namespace MaximalMunch

namespace Tokens

variable {ts rest : Tokens} {u v w : List Token} {p q : Nat}

theorem Reads.length_eq (h : Reads ts w rest) : ts.length = w.length + rest.length := by
  induction h with
  | nil =>
      simp
  | cons _ ih =>
      simp only [length, List.length_cons, ih]
      omega

/-- Between two places of a chain there is one word. -/
theorem Reads.unique (h : Reads ts u rest) (h' : Reads ts v rest) : u = v := by
  induction h generalizing v with
  | nil =>
      have hlength := h'.length_eq
      exact (List.eq_nil_of_length_eq_zero (by omega)).symm
  | @cons k c p ts rest w h ih =>
      cases h' with
      | nil =>
          have hlength := h.length_eq
          simp only [length] at hlength
          omega
      | cons h' =>
          rw [ih h']

/-- `ReadsTo ts w p rest`: the tokens `w` stand in front of `ts`, the last of them ends at `p`, and `rest`
follows. -/
def ReadsTo (ts : Tokens) (w : List Token) (p : Nat) (rest : Tokens) : Prop :=
  ∃ u t, w = u ++ [t] ∧ Reads ts u (token t.kind t.char p rest)

theorem ReadsTo.reads (h : ReadsTo ts w p rest) : Reads ts w rest := by
  rcases h with ⟨u, t, rfl, hu⟩
  exact hu.append (.cons .nil)

theorem ReadsTo.unique (h : ReadsTo ts w p rest) (h' : ReadsTo ts w q rest) : p = q := by
  rcases h with ⟨u, t, rfl, hu⟩
  rcases h' with ⟨u', t', heq, hu'⟩
  obtain ⟨rfl, ht⟩ := List.append_inj' heq rfl
  obtain rfl : t = t' := by simpa using ht
  clear heq
  -- The same tokens lead to one place, which holds one position.
  induction u generalizing ts with
  | nil =>
      have hplace := (reads_nil_iff.1 hu).trans (reads_nil_iff.1 hu').symm
      injection hplace
  | cons x u ih =>
      rcases reads_cons_iff.1 hu with ⟨r, ts₁, rfl, hu₁⟩
      rcases reads_cons_iff.1 hu' with ⟨r', ts₂, hts, hu₂⟩
      injection hts with _ _ _ hts
      rw [← hts] at hu₂
      exact ih hu₁ hu₂

theorem readsTo_token {k : Token.Kind} {c : Char} : ReadsTo (token k c p ts) [⟨k, c⟩] p ts :=
  ⟨[], ⟨k, c⟩, rfl, .nil⟩

theorem Reads.readsTo {mid : Tokens} (h : Reads ts u mid) (h' : ReadsTo mid v p rest) :
    ReadsTo ts (u ++ v) p rest := by
  rcases h' with ⟨v, t, rfl, hv⟩
  exact ⟨u ++ v, t, (List.append_assoc u v [t]).symm, h.append hv⟩

end Tokens

/-! ## Positions in a pattern -/

namespace Token.Table

/-- A token takes characters, and the reading goes on behind them. -/
theorem reading_eq_token {t : Table} {p q : Nat} {cs : List Char} {k : Kind} {c : Char} {rest : Tokens}
    (h : t.reading p cs = .token k c q rest) :
    p < q ∧ q ≤ p + cs.length ∧ rest = t.reading q (cs.drop (q - p)) := by
  fun_cases reading t p cs with
  | case1 | case2 | case4 x rest' hnone | case6 x rest' hx hnone =>
      simp_all [reading]
  | case3 x rest' y hy =>
      simp only [reading, hy, Tokens.token.injEq] at h
      obtain ⟨-, -, rfl, rfl⟩ := h
      refine ⟨by omega, by simp only [List.length_cons]; omega, ?_⟩
      rw [Nat.add_sub_cancel_left]
      rfl
  | case5 c' rest' hc k' hk =>
      simp only [reading, hk, Tokens.token.injEq] at h
      obtain ⟨-, -, rfl, rfl⟩ := h
      refine ⟨by omega, by simp only [List.length_cons]; omega, ?_⟩
      rw [Nat.add_sub_cancel_left]
      rfl

theorem reading_eq_ended {t : Table} {p q : Nat} {cs : List Char} (h : t.reading p cs = .ended q) :
    cs = [] ∧ q = p + 1 := by
  fun_cases reading t p cs with
  | case1 => simpa [reading, eq_comm] using h
  | case2 | case3 | case4 | case5 | case6 => simp_all [reading]

theorem reading_eq_failed {t : Table} {p q : Nat} {cs : List Char} (h : t.reading p cs = .failed q) :
    q = p := by
  fun_cases reading t p cs <;> simp_all [reading]

/-- What a plain character of a text means stands in the table. -/
theorem reading_kind {t : Table} {p q : Nat} {cs : List Char} {k : Kind} {c : Char} {rest : Tokens}
    (h : t.reading p cs = .token k c q rest) : k = .escape ∨ t.kind? c = some k := by
  fun_cases reading t p cs with
  | case1 | case2 | case4 x rest' hnone | case6 x rest' hx hnone =>
      simp_all [reading]
  | case3 x rest' y hy =>
      simp only [reading, hy, Tokens.token.injEq] at h
      exact .inl h.1.symm
  | case5 c' rest' hc k' hk =>
      simp only [reading, hk, Tokens.token.injEq] at h
      obtain ⟨rfl, rfl, -, -⟩ := h
      exact .inr hk

/-- A token that is no backslash sequence is the first character of its text. -/
theorem reading_plain {t : Table} {p q : Nat} {cs : List Char} {k : Kind} {c : Char} {rest : Tokens}
    (h : t.reading p cs = .token k c q rest) (hk : k ≠ .escape) :
    q = p + 1 ∧ t.kind? c = some k ∧ ∃ cs', cs = c :: cs' := by
  fun_cases reading t p cs with
  | case1 | case2 | case4 x rest' hnone | case6 x rest' hx hnone =>
      simp_all [reading]
  | case3 x rest' y hy =>
      simp only [reading, hy, Tokens.token.injEq] at h
      exact absurd h.1.symm hk
  | case5 c' rest' hc k' hk' =>
      simp only [reading, hk', Tokens.token.injEq] at h
      obtain ⟨rfl, rfl, rfl, -⟩ := h
      exact ⟨rfl, hk', rest', rfl⟩

end Token.Table

namespace Dialect

open CodePoint Tokens

variable {d : Dialect} {pattern : String} {ts rest : Tokens} {w : List Token} {c : Char} {p q : Nat}

/-- The tokens of the pattern behind its first `p` characters. -/
def Behind (d : Dialect) (pattern : String) (p : Nat) (ts : Tokens) : Prop :=
  p ≤ pattern.toList.length ∧ ts = d.table.reading p (pattern.toList.drop p)

/-- A token stands at the number of characters up to and including it, the end of the pattern behind one
character more than there are, and what is no token behind the characters before it. -/
def Placed (d : Dialect) (pattern : String) : Tokens → Prop
  | .token _ _ p rest => d.Behind pattern p rest
  | .ended p => p = pattern.toList.length + 1
  | .failed p => d.Behind pattern p (.failed p)

theorem behind_tokens (d : Dialect) (pattern : String) : d.Behind pattern 0 (d.tokens pattern) :=
  ⟨Nat.zero_le _, d.tokens_eq_reading pattern⟩

theorem Behind.next {k : Token.Kind} {c : Char} (h : d.Behind pattern p (.token k c q rest)) :
    d.Behind pattern q rest := by
  rcases Token.Table.reading_eq_token h.2.symm with ⟨hlt, hle, hrest⟩
  have hlength := h.1
  rw [List.length_drop] at hle
  rw [List.drop_drop, Nat.add_sub_cancel' (Nat.le_of_lt hlt)] at hrest
  exact ⟨by omega, hrest⟩

/-- The end of the pattern is behind all of its characters. -/
theorem Behind.ended (h : d.Behind pattern p (.ended q)) : q = pattern.toList.length + 1 := by
  rcases Token.Table.reading_eq_ended h.2.symm with ⟨hnil, rfl⟩
  have hle := List.drop_eq_nil_iff.1 hnil
  exact congrArg (· + 1) (Nat.le_antisymm h.1 hle)

theorem Behind.failed (h : d.Behind pattern p (.failed q)) : q = p :=
  Token.Table.reading_eq_failed h.2.symm

theorem Behind.placed (h : d.Behind pattern p ts) : d.Placed pattern ts := by
  cases ts with
  | token => exact h.next
  | ended => exact h.ended
  | failed q =>
      obtain rfl := h.failed
      exact h

theorem Behind.of_reads (h : d.Behind pattern p ts) (hw : Reads ts w rest) :
    ∃ q, d.Behind pattern q rest := by
  induction hw generalizing p with
  | nil => exact ⟨p, h⟩
  | cons _ ih => exact ih h.next

/-- What is read off a pattern is at its place. -/
theorem placed_of_reads (hw : Reads (d.tokens pattern) w rest) : d.Placed pattern rest := by
  rcases (d.behind_tokens pattern).of_reads hw with ⟨q, hq⟩
  exact hq.placed

/-! ## Digits -/

/-- The digits of a dialect are those of decimal numbers. -/
theorem isDigit_of_kind? (hk : d.table.kind? c = some .digit) : '0' ≤ c ∧ c ≤ '9' := by
  rcases (Token.Table.kind?_eq_some_iff d.readable_table).1 hk with ⟨row, hrow, hcovers, hkind⟩
  have hrows : ∀ row ∈ d.table.rows, row.2.kind? = some .digit → row.1 = ⟨ofChar '0', ofChar '9'⟩ := by
    cases d <;> decide
  rw [hrows row hrow hkind] at hcovers
  exact ⟨ofChar_le_iff.1 hcovers.1, ofChar_le_iff.1 hcovers.2⟩

theorem Behind.isDigit (h : d.Behind pattern p ts) (hw : Reads ts w rest) :
    ∀ t ∈ w, t.kind = .digit → '0' ≤ t.char ∧ t.char ≤ '9' := by
  induction hw generalizing p with
  | nil =>
      simp
  | cons _ ih =>
      refine List.forall_mem_cons.2 ⟨fun hk => ?_, ih h.next⟩
      rcases Token.Table.reading_kind h.2.symm with hescape | hplain
      · exact absurd (hk.symm.trans hescape) (by simp)
      · exact isDigit_of_kind? (hplain.trans (congrArg some hk))

theorem isDigit_of_reads (hw : Reads (d.tokens pattern) w rest) :
    ∀ t ∈ w, t.kind = .digit → '0' ≤ t.char ∧ t.char ≤ '9' :=
  (d.behind_tokens pattern).isDigit hw

end Dialect

end MaximalMunch
