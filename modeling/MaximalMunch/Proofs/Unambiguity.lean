import MaximalMunch.PatternSet.Basic
import MaximalMunch.Proofs.Unescaping
import MaximalMunch.Range.Display

/-!
# Displays are unambiguous

The display of a range can be taken apart: behind its first end there is nothing or a hyphen, and this says
where the end stops, even if the end is a hyphen itself or one of the letters that the end mark is written
with. So different ranges have different displays, and so have different patterns.

- `CodePoint.Symbol`                  : characters and the end mark
- `Range.displayEnd_append_inj`       : one text does not begin with two different ends
- `Range.display_inj`                 : different ranges have different displays
- `displays_unambiguous`              : the same for ranges and for patterns
-/

namespace MaximalMunch

open CodePoint (endMark)

/-- What stands in a text or behind it. -/
inductive CodePoint.Symbol : Int → Prop where
  | char (c : Char) : Symbol (CodePoint.ofChar c)
  | endMark : Symbol endMark

namespace Range

/-- A range with a symbol at both ends. -/
structure Symbolic (r : Range) : Prop where
  lo : CodePoint.Symbol r.lo
  hi : CodePoint.Symbol r.hi

variable {p q : Int} {c : Char} {u v : List Char} {r s : Range}

/-! ## The ends -/

theorem displayEnd_char (c : Char) : displayEnd (CodePoint.ofChar c) = Text.escapedChar c := by
  rw [displayEnd, CodePoint.toChar?_ofChar]

theorem displayEnd_endMark : displayEnd endMark = ['E', 'O', 'F'] := rfl

/-- What may stand behind an end: nothing, or a hyphen and the other end. -/
def Behind (u : List Char) : Prop := ∀ c ∈ u.head?, c = '-'

theorem behind_nil : Behind [] := by simp [Behind]

theorem behind_hyphen (u : List Char) : Behind ('-' :: u) := by simp [Behind]

/-- The end mark is not taken for the letter that it begins with, as the letter behind this is no hyphen. -/
theorem displayEnd_char_append_ne (hu : Behind u) :
    displayEnd (CodePoint.ofChar c) ++ u ≠ displayEnd endMark ++ v := by
  intro h
  have hletter : Text.escapedChar c ++ u = Text.escapedChar 'E' ++ ('O' :: 'F' :: v) := by
    rw [displayEnd_char, displayEnd_endMark] at h
    exact h
  obtain ⟨-, rfl⟩ := Text.escapedChar_append_inj hletter
  exact absurd (hu 'O' rfl) (by decide)

/-- A text does not begin with two different ends. -/
theorem displayEnd_append_inj (hp : CodePoint.Symbol p) (hq : CodePoint.Symbol q) (hu : Behind u)
    (hv : Behind v) (h : displayEnd p ++ u = displayEnd q ++ v) : p = q ∧ u = v := by
  cases hp with
  | char c =>
      cases hq with
      | char d =>
          rw [displayEnd_char, displayEnd_char] at h
          obtain ⟨rfl, rfl⟩ := Text.escapedChar_append_inj h
          exact ⟨rfl, rfl⟩
      | endMark =>
          exact absurd h (displayEnd_char_append_ne hu)
  | endMark =>
      cases hq with
      | char d =>
          exact absurd h.symm (displayEnd_char_append_ne hv)
      | endMark =>
          exact ⟨rfl, List.append_cancel_left h⟩

theorem displayEnd_inj (hp : CodePoint.Symbol p) (hq : CodePoint.Symbol q)
    (h : displayEnd p = displayEnd q) : p = q :=
  (displayEnd_append_inj hp hq behind_nil behind_nil (by rw [h])).1

/-! ## Both ends -/

/-- What stands behind the first end of a range. -/
def behindLo (r : Range) : List Char := if r.lo = r.hi then [] else '-' :: displayEnd r.hi

theorem display_eq (r : Range) : r.display = String.ofList (displayEnd r.lo ++ r.behindLo) := by
  rw [display, behindLo]
  split
  · rw [List.append_nil]
  · rfl

theorem behind_behindLo (r : Range) : Behind r.behindLo := by
  rw [behindLo]
  split
  · exact behind_nil
  · exact behind_hyphen _

/-- From a common first end on, the displays of two ranges tell their other ends. -/
theorem hi_eq_of_behindLo (hr : r.Symbolic) (hs : s.Symbolic) (hlo : r.lo = s.lo)
    (h : r.behindLo = s.behindLo) : r.hi = s.hi := by
  unfold behindLo at h
  -- Nothing stands behind the end of a single code point, and a hyphen behind any other first end.
  split at h
  · rename_i hpoint
    split at h
    · rename_i hpoint'
      rw [← hpoint, hlo, hpoint']
    · exact absurd h (by simp)
  · split at h
    · exact absurd h (by simp)
    · exact displayEnd_inj hr.hi hs.hi (List.cons.inj h).2

theorem display_inj (hr : r.Symbolic) (hs : s.Symbolic) (h : r.display = s.display) : r = s := by
  rw [display_eq, display_eq] at h
  -- The first ends are the same, and so is what stands behind them.
  obtain ⟨hlo, hbehind⟩ :=
    displayEnd_append_inj hr.lo hs.lo (behind_behindLo r) (behind_behindLo s) (String.ofList_injective h)
  have hhi := hi_eq_of_behindLo hr hs hlo hbehind
  obtain ⟨a, b⟩ := r
  obtain ⟨a', b'⟩ := s
  obtain rfl : a = a' := hlo
  obtain rfl : b = b' := hhi
  rfl

end Range

/-- Two ranges whose ends are characters or the end mark have one display only if they are the same range.
None of them has to be proper. Two patterns have one display only if they have the same text, whatever
values they stand for. -/
theorem displays_unambiguous :
    (∀ r s : Range, r.Symbolic → s.Symbolic → r.display = s.display → r = s) ∧
      ∀ {V W : Type} (p : Pattern V) (q : Pattern W), p.display = q.display → p.text = q.text :=
  ⟨fun _ _ hr hs h => Range.display_inj hr hs h, fun _ _ h => Text.escaped_inj h⟩

/-- For a hyphen behind the end mark beside the letters of the end mark, and for a line end beside the two
characters that it is written with. -/
theorem displays_unambiguous_hyphen :
    let r : Range := ⟨endMark, CodePoint.ofChar '-'⟩
    let s : Range := ⟨CodePoint.ofChar 'E', CodePoint.ofChar 'O'⟩
    let p : Pattern Nat := ⟨"\n", 1⟩
    let q : Pattern Bool := ⟨"\\n", true⟩
    r.Symbolic ∧ s.Symbolic ∧ r.display ≠ s.display ∧ p.display ≠ q.display := by
  intro r s p q
  have hr : r.Symbolic := ⟨.endMark, .char '-'⟩
  have hs : s.Symbolic := ⟨.char 'E', .char 'O'⟩
  refine ⟨hr, hs, fun h => ?_, fun h => ?_⟩
  · have heq : r = s := displays_unambiguous.1 r s hr hs h
    exact absurd (congrArg Range.lo heq) (by decide)
  · have heq : p.text = q.text := displays_unambiguous.2 p q h
    exact absurd heq (by decide)

/-- A surrogate is no character, and is displayed as the end mark is. -/
example : (Range.point 0xD800).display = (Range.point endMark).display := by decide

end MaximalMunch
