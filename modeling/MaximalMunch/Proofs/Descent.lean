import MaximalMunch.Pattern.Descent
import MaximalMunch.Proofs.BoundsReading
import MaximalMunch.Proofs.RegexReading

/-!
# Runs of recursive descent

What a read does to the chain of tokens that a scanner has before it, and how programs that come to an end follow
one another.

- `Tokens.readNext_ofScanner` : a read takes the first token of the chain
- `Descent.Ends`              : a program comes to an end, and what holds there
- `Descent.Ends.bind`, `Ends.seq` : one program after another
-/

namespace MaximalMunch

/-! ## Single reads of a chain -/

namespace Tokens

open Token

/-- What a read of the chain hands out. -/
def front : Tokens → Except SyntaxError Item
  | token k c _ _ => .ok ⟨some k, some c⟩
  | ended _ => .ok ⟨none, none⟩
  | failed p => .error ⟨.unrecognizedCharacter, p⟩

/-- What the next read goes on with. Behind the end there is no token. -/
def behind : Tokens → Tokens
  | token _ _ _ rest => rest
  | ended p => failed p
  | failed p => failed p

/-- Where a scanner is exhausted, there is no token. -/
theorem ofScanner_of_exhausted {s : Scanner Lexeme} (hx : s.exhausted = true) :
    ofScanner s = failed s.position := by
  rw [ofScanner_eq, Scanner.tryNext_of_exhausted hx]

/-- A read takes the first token of the chain of the scanner. -/
theorem readNext_ofScanner {t : Table} (ht : t.Readable) {s : Scanner Lexeme} (hs : s.Ready t.lexer) :
    (readNext s).1 = (ofScanner s).front ∧ (readNext s).2.position = (ofScanner s).position ∧
      ofScanner (readNext s).2 = (ofScanner s).behind ∧ (readNext s).2.Ready t.lexer := by
  by_cases hx : s.exhausted = true
  · have hread := readNext_of_none (congrArg Prod.fst (Scanner.tryNext_of_exhausted hx))
    rw [congrArg Prod.snd (Scanner.tryNext_of_exhausted hx)] at hread
    rw [hread, ofScanner_of_exhausted hx]
    exact ⟨rfl, rfl, rfl, hs⟩
  · rw [Bool.not_eq_true] at hx
    have hchain := ofScanner_eq_reading ht s hs hx
    rcases Table.reading_cases ht hs hx with
      ⟨hreading, hstays⟩ | ⟨hreading, hnil, htakes⟩ | ⟨c, rest, k, htext, htakes, hreading⟩ |
        ⟨x, rest, y, htext, htakes, hreading⟩
    · -- The scanner has not moved, so the next read fails as well.
      have hnext := ofScanner_eq_reading ht _ hs.tryNext hstays.exhausted
      rw [hstays.position, hstays.text, hreading] at hnext
      rw [readNext_of_none (Table.tryNext_of_stays ht hs hstays), hchain, hreading]
      exact ⟨by rw [hstays.position, front], hstays.position, hnext, hs.tryNext⟩
    · have hnext := ofScanner_of_exhausted (s := s.tryNext.2) (by simp [htakes.exhausted, hnil])
      rw [htakes.position] at hnext
      rw [readNext_of_some htakes.found, hchain, hreading, hnil]
      exact ⟨rfl, htakes.position, hnext, hs.tryNext⟩
    · have hnext := ofScanner_eq_reading ht _ hs.tryNext (by simp [htakes.exhausted, htext])
      rw [htakes.position, htakes.text, htext, List.drop_succ_cons, List.drop_zero] at hnext
      rw [readNext_of_some htakes.found, hchain, hreading, htext]
      exact ⟨by simp [Item.ofMatch, front], htakes.position, hnext, hs.tryNext⟩
    · have hnext := ofScanner_eq_reading ht _ hs.tryNext (by simp [htakes.exhausted, htext])
      rw [htakes.position, htakes.text, htext, List.drop_succ_cons, List.drop_succ_cons, List.drop_zero] at hnext
      rw [readNext_of_some htakes.found, hchain, hreading]
      exact ⟨rfl, htakes.position, hnext, hs.tryNext⟩

end Tokens

/-! ## Programs that come to an end -/

namespace Descent

open Token Tokens

variable {α β : Type} {s : Cursor} {x : Parser α} {f : α → Parser β} {E E' : SyntaxError → Cursor → Prop}
  {P P' : α → Cursor → Prop} {Q : β → Cursor → Prop}

/-- From the state `s` the program comes to an end. Then `P` holds of its answer and the state behind it, or `E`
of its error and that state. -/
def Ends (x : Parser α) (s : Cursor) (E : SyntaxError → Cursor → Prop) (P : α → Cursor → Prop) : Prop :=
  ∃ r s', x.run.run s = some (r, s') ∧
    match r with
    | .ok a => P a s'
    | .error e => E e s'

theorem Ends.pure {a : α} (h : P a s) : Ends (Pure.pure a) s E P := ⟨.ok a, s, rfl, h⟩

theorem Ends.bind (hx : Ends x s E fun a s' => Ends (f a) s' E Q) : Ends (x >>= f) s E Q := by
  rcases hx with ⟨r, s', hrun, h⟩
  have hsplit : (x >>= f).run.run s =
      (x.run.run s).bind fun r => (ExceptT.bindCont f r.1).run r.2 := rfl
  cases r with
  | error e =>
      refine ⟨.error e, s', ?_, h⟩
      rw [hsplit, hrun]
      rfl
  | ok a =>
      rcases h with ⟨r, s'', hrun', h⟩
      refine ⟨r, s'', ?_, h⟩
      rw [hsplit, hrun]
      exact hrun'

theorem Ends.imp (h : Ends x s E P) (hE : ∀ e s', E e s' → E' e s') (hP : ∀ a s', P a s' → P' a s') :
    Ends x s E' P' := by
  rcases h with ⟨r, s', hrun, h⟩
  cases r with
  | error e => exact ⟨.error e, s', hrun, hE e s' h⟩
  | ok a => exact ⟨.ok a, s', hrun, hP a s' h⟩

/-- One program after another one, of which more is known than is asked for. -/
theorem Ends.seq (hx : Ends x s E P) (hE : ∀ e s', E e s' → E' e s') (hf : ∀ a s', P a s' → Ends (f a) s' E' Q) :
    Ends (x >>= f) s E' Q :=
  .bind (hx.imp hE hf)

theorem Ends.get_bind {f : Cursor → Parser β} (h : Ends (f s) s E Q) : Ends (get >>= f) s E Q :=
  .bind ⟨.ok s, s, rfl, h⟩

theorem Ends.modify_bind {f : PUnit → Parser β} {g : Cursor → Cursor} (h : Ends (f ⟨⟩) (g s) E Q) :
    Ends (modify g >>= f) s E Q :=
  .bind ⟨.ok ⟨⟩, g s, rfl, h⟩

theorem ends_fail {kind : SyntaxError.Kind} (h : E ⟨kind, s.scanner.position⟩ s) : Ends (fail kind) s E P :=
  ⟨.error _, s, rfl, h⟩

end Descent

end MaximalMunch
