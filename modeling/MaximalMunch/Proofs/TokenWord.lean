import MaximalMunch.Token.Basic

/-!
# Words of tokens

What a grammar says of a pattern it says of the kinds and the characters of its tokens, not of their
positions.

- `Token`         : a token without its position
- `Token.Begins`  : the kind of the first token of a word
- `Tokens.word?`  : all tokens of a text
- `Tokens.Reads`  : some tokens in front, and what follows them
- `Tokens.kind?`  : the kind of the first token of a text
-/

namespace MaximalMunch

/-- A token, apart from its position. -/
structure Token where
  kind : Token.Kind
  char : Char
  deriving DecidableEq

/-- The first token of a word is of the kind `k`. -/
def Token.Begins (w : List Token) (k : Token.Kind) : Prop := w.head?.map Token.kind = some k

namespace Tokens

/-- The tokens up to the end of the text, if all of the text is made of tokens. -/
def word? : Tokens → Option (List Token)
  | token k c _ rest => rest.word?.map (⟨k, c⟩ :: ·)
  | ended _ => some []
  | failed _ => none

/-- The kind of the first token. -/
def kind? : Tokens → Option Token.Kind
  | token k _ _ _ => some k
  | ended _ => none
  | failed _ => none

/-- `Reads ts w rest`: the tokens `w` stand in front of `ts`, and `rest` follows them. -/
inductive Reads : Tokens → List Token → Tokens → Prop where
  | nil {ts : Tokens} : Reads ts [] ts
  | cons {k : Token.Kind} {c : Char} {p : Nat} {ts rest : Tokens} {w : List Token} :
      Reads ts w rest → Reads (token k c p ts) (⟨k, c⟩ :: w) rest

variable {ts mid rest : Tokens} {t : Token} {u v w : List Token}

@[simp] theorem reads_nil_iff : Reads ts [] rest ↔ rest = ts := by
  constructor
  · intro h
    cases h
    rfl
  · rintro rfl
    exact .nil

theorem reads_cons_iff :
    Reads ts (t :: w) rest ↔ ∃ p ts', ts = token t.kind t.char p ts' ∧ Reads ts' w rest := by
  constructor
  · intro h
    cases h with
    | cons h => exact ⟨_, _, rfl, h⟩
  · rintro ⟨p, ts', rfl, h⟩
    exact .cons h

theorem reads_singleton_iff : Reads ts [t] rest ↔ ∃ p, ts = token t.kind t.char p rest := by
  simp [reads_cons_iff]

theorem Reads.append (hu : Reads ts u mid) (hv : Reads mid v rest) : Reads ts (u ++ v) rest := by
  induction hu with
  | nil => exact hv
  | cons _ ih => exact .cons (ih hv)

theorem reads_append_iff : Reads ts (u ++ v) rest ↔ ∃ mid, Reads ts u mid ∧ Reads mid v rest := by
  constructor
  · intro h
    induction u generalizing ts with
    | nil => exact ⟨ts, .nil, h⟩
    | cons t u ih =>
        rcases reads_cons_iff.1 h with ⟨p, ts', rfl, hrest⟩
        rcases ih hrest with ⟨mid, hu, hv⟩
        exact ⟨mid, .cons hu, hv⟩
  · rintro ⟨mid, hu, hv⟩
    exact hu.append hv

theorem Reads.word?_eq (h : Reads ts u rest) : ts.word? = rest.word?.map (u ++ ·) := by
  induction h with
  | nil =>
      simp
  | cons _ ih =>
      rw [word?, ih, Option.map_map]
      rfl

/-- All tokens of a text are read up to its end. -/
theorem word?_eq_some_iff : ts.word? = some w ↔ ∃ p, Reads ts w (ended p) := by
  constructor
  · intro h
    induction ts generalizing w with
    | token k c p ts ih =>
        rcases Option.map_eq_some_iff.1 h with ⟨w, hw, rfl⟩
        rcases ih hw with ⟨p, hreads⟩
        exact ⟨p, .cons hreads⟩
    | ended p =>
        obtain rfl := Option.some.inj h
        exact ⟨p, .nil⟩
    | failed p =>
        exact absurd h (by simp [word?])
  · rintro ⟨p, hreads⟩
    simp [hreads.word?_eq, word?]

/-! ## The first token -/

theorem kind?_eq_some_iff {k : Token.Kind} : ts.kind? = some k ↔ ∃ c p ts', ts = token k c p ts' := by
  constructor
  · intro h
    cases ts with
    | ended | failed => exact absurd h (by simp [kind?])
    | token k' c p ts' =>
        obtain rfl := Option.some.inj h
        exact ⟨c, p, ts', rfl⟩
  · rintro ⟨c, p, ts', rfl⟩
    rfl

theorem begins_cons_iff {k : Token.Kind} : Token.Begins (t :: w) k ↔ t.kind = k := by
  simp [Token.Begins]

theorem not_begins_nil {k : Token.Kind} : ¬ Token.Begins [] k := by
  simp [Token.Begins]

theorem begins_append {k : Token.Kind} (h : Token.Begins u k) : Token.Begins (u ++ v) k := by
  cases u with
  | nil => exact absurd h not_begins_nil
  | cons t u => exact begins_cons_iff.2 (begins_cons_iff.1 h)

/-- Two words in front of the same text begin with the same token. -/
theorem begins_congr {u' v' : List Token} {k : Token.Kind} (hu : u ≠ []) (hu' : u' ≠ [])
    (heq : u ++ v = u' ++ v') : Token.Begins u k ↔ Token.Begins u' k := by
  obtain ⟨t, u, rfl⟩ := List.exists_cons_of_ne_nil hu
  obtain ⟨t', u', rfl⟩ := List.exists_cons_of_ne_nil hu'
  obtain ⟨rfl, -⟩ := List.cons.inj heq
  rw [begins_cons_iff, begins_cons_iff]

/-- The text begins with the first token of its word. -/
theorem begins_iff_of_word? (h : ts.word? = some w) {k : Token.Kind} :
    Token.Begins w k ↔ ts.kind? = some k := by
  cases ts with
  | token k' c p ts =>
      rcases Option.map_eq_some_iff.1 h with ⟨w, -, rfl⟩
      simp [Token.Begins, kind?]
  | ended p =>
      obtain rfl := Option.some.inj h
      simp [Token.Begins, kind?]
  | failed p =>
      exact absurd h (by simp [word?])

/-- The text begins with the first token that is read. -/
theorem Reads.begins_iff (h : Reads ts w rest) (hw : w ≠ []) {k : Token.Kind} :
    Token.Begins w k ↔ ts.kind? = some k := by
  cases h with
  | nil => exact absurd rfl hw
  | cons => simp [Token.Begins, kind?]

end Tokens

end MaximalMunch
