import MaximalMunch.Match
import MaximalMunch.Scanner.Walk

/-!
# Scanners

A `Scanner` cuts a text into the longest matches of an automaton. What was read ahead while it looked for a
longer match is kept, so that nothing is read twice.

- `Scanner.position` : the number of code points consumed
- `Scanner.tryNext`  : the longest match at the current position
- `Scanner.next`     : the same, but at an end after the first match with an empty capture
- `Scanner.collect`  : everything that `next` finds
- `Scanner.text`     : the characters not consumed yet
- `tryNext_text`     : a match takes its capture off the text, and no match takes nothing

A match that takes in the end mark exhausts the scanner.
-/

namespace MaximalMunch

/-- A scan of one text. -/
structure Scanner (V : Type) where
  automaton : DFA V
  input : Input
  /-- Code points read and not consumed. -/
  ahead : List Int := []
  /-- The number of code points read, end marks included. -/
  readCount : Nat := 0
  /-- A match has taken in the end of the text. -/
  exhausted : Bool := false
  /-- Iteration has come to a match with an empty capture. -/
  stalled : Bool := false
  ahead_le : ahead.length ≤ readCount := by exact Nat.le_refl 0

namespace Scanner

variable {V : Type}

def ofString (d : DFA V) (s : String) : Scanner V := { automaton := d, input := .ofString s }

/-- The characters of a list of code points. -/
def characters (ps : List Int) : List Char := ps.filterMap CodePoint.toChar?

/-- The characters not consumed yet. -/
def text (s : Scanner V) : List Char := characters s.ahead ++ s.input.rest

/-- The number of code points consumed. -/
def position (s : Scanner V) : Nat := s.readCount - s.ahead.length

/-- What was read is consumed or still ahead. -/
theorem position_add_length (s : Scanner V) : s.position + s.ahead.length = s.readCount :=
  Nat.sub_add_cancel s.ahead_le

/-- The walk from the start of the automaton over the remaining text. -/
def walk (s : Scanner V) : Walk.Outcome V :=
  Walk.advance s.automaton { state := s.automaton.start } s.ahead s.input [] s.automaton.size

/-- Keep what a walk has read. -/
def keep (s : Scanner V) (o : Walk.Outcome V) : Scanner V :=
  { s with
    input := o.input
    ahead := if o.fresh.isEmpty then s.ahead else s.ahead ++ o.fresh.reverse
    readCount := s.readCount + o.fresh.length
    ahead_le := by
      have h := s.ahead_le
      split
      · exact Nat.le_add_right_of_le h
      · rw [List.length_append, List.length_reverse]
        exact Nat.add_le_add_right h _ }

/-- Consume `n` of the code points read ahead: what is left of the scanner, and the text taken. -/
def take (s : Scanner V) (n : Nat) : String × Scanner V :=
  let taken := s.ahead.take n
  (String.ofList (characters taken),
    { s with
      ahead := s.ahead.drop n
      exhausted := taken.any fun p => (CodePoint.toChar? p).isNone
      ahead_le := by
        rw [List.length_drop]
        exact Nat.le_trans (Nat.sub_le _ _) s.ahead_le })

/-- The longest match at the current position. If only the empty text is accepted, the match captures
nothing and the position stays. An exhausted scanner finds nothing. -/
def tryNext (s : Scanner V) : Option (Match V) × Scanner V :=
  if s.exhausted then (none, s)
  else
    let o := s.walk
    let s := s.keep o
    match o.walk.best with
    | some (n, value) =>
      -- What the walk has read behind the match stays ahead.
      let (capture, s) := s.take n
      (some { value, capture }, s)
    | none =>
      -- No edge led to a value, but the start may have one of its own.
      match s.automaton.value? s.automaton.start with
      | some value => (some { value, capture := "" }, s)
      | none => (none, s)

/-- Like `tryNext`, up to the first match with an empty capture. -/
def next (s : Scanner V) : Option (Match V) × Scanner V :=
  if s.stalled then (none, s)
  else
    match s.tryNext with
    | (none, s) => (none, s)
    | (some m, s) => (some m, { s with stalled := m.isEmpty })

/-! ## No character is lost or read twice -/

theorem characters_append (ps qs : List Int) :
    characters (ps ++ qs) = characters ps ++ characters qs :=
  List.filterMap_append

@[simp] theorem text_ofString (d : DFA V) (s : String) : (ofString d s).text = s.toList := rfl

theorem keep_ahead (s : Scanner V) (o : Walk.Outcome V) :
    (s.keep o).ahead = s.ahead ++ o.fresh.reverse := by
  have hahead : (s.keep o).ahead = if o.fresh.isEmpty then s.ahead else s.ahead ++ o.fresh.reverse := rfl
  rw [hahead]
  cases o.fresh <;> simp

/-- What a walk reads is not consumed. -/
theorem position_keep (s : Scanner V) (o : Walk.Outcome V) : (s.keep o).position = s.position := by
  have h := (s.keep o).position_add_length
  have hs := s.position_add_length
  have hcount : (s.keep o).readCount = s.readCount + o.fresh.length := rfl
  rw [keep_ahead, List.length_append, List.length_reverse] at h
  omega

/-- What is taken off the code points ahead is consumed. -/
theorem position_take (s : Scanner V) (n : Nat) :
    (s.take n).2.position = s.position + (s.ahead.take n).length := by
  have h := (s.take n).2.position_add_length
  have hs := s.position_add_length
  have hcount : (s.take n).2.readCount = s.readCount := rfl
  have hahead : (s.take n).2.ahead = s.ahead.drop n := rfl
  rw [hahead, List.length_drop] at h
  rw [List.length_take]
  omega

theorem text_keep_walk (s : Scanner V) : (s.keep s.walk).text = s.text := by
  have h := Walk.text_advance s.automaton { state := s.automaton.start } s.ahead s.input []
    s.automaton.size
  simp only [List.reverse_nil, List.filterMap_nil, List.nil_append] at h
  unfold text
  rw [keep_ahead, characters_append, List.append_assoc]
  exact congrArg (characters s.ahead ++ ·) h

theorem text_take (s : Scanner V) (n : Nat) : (s.take n).1.toList ++ (s.take n).2.text = s.text := by
  simp only [take, text, String.toList_ofList]
  rw [← List.append_assoc, ← characters_append, List.take_append_drop]

/-- A match takes its capture off the text, and no match takes nothing. -/
theorem tryNext_text (s : Scanner V) :
    (s.tryNext.1.elim [] fun m => m.capture.toList) ++ s.tryNext.2.text = s.text := by
  unfold tryNext
  split
  · rfl
  · dsimp only
    split
    · exact (text_take _ _).trans (text_keep_walk s)
    · split <;> exact text_keep_walk s

/-- What is left to find: characters first, then one match with an empty capture. -/
def remaining (s : Scanner V) : Nat × Nat := (s.text.length, if s.stalled then 0 else 1)

/-- A match that `next` finds leaves less to find. -/
theorem remaining_next (s : Scanner V) {m : Match V} (h : s.next.1 = some m) :
    Prod.Lex (· < ·) (· < ·) s.next.2.remaining s.remaining := by
  unfold next at h ⊢
  split at h
  · exact absurd h (by simp)
  · rename_i hs
    rw [if_neg hs]
    split at h
    · exact absurd h (by simp)
    · rename_i m₁ s₁ heq
      obtain rfl : m₁ = m := by simpa using h
      have ht := s.tryNext_text
      rw [heq] at ht
      have hlength : m₁.capture.toList.length + s₁.text.length = s.text.length := by
        rw [← ht]
        simp
      cases hm : m₁.isEmpty with
      | false =>
        -- A capture takes characters off the text.
        have hpos : 0 < m₁.capture.toList.length := by
          refine List.length_pos_iff.2 fun hnil => ?_
          rw [String.toList_eq_nil_iff] at hnil
          simp [Match.isEmpty, hnil] at hm
        exact Prod.Lex.left _ _ (show s₁.text.length < s.text.length by omega)
      | true =>
        -- An empty capture takes nothing, but there is no second one.
        have hnil : m₁.capture.toList = [] := by
          rw [String.toList_eq_nil_iff]
          simpa [Match.isEmpty] using hm
        have htext : s₁.text.length = s.text.length := by
          rw [← hlength, hnil]
          simp
        simp only [remaining, hs]
        rw [show ({ s₁ with stalled := true } : Scanner V).text = s₁.text from rfl, htext]
        exact Prod.Lex.right _ (by simp)

/-! ## All matches -/

/-- `next`, with the fact that a match leaves less to find. -/
def nextShorter (s : Scanner V) :
    { r : Option (Match V) × Scanner V //
      ∀ m, r.1 = some m → Prod.Lex (· < ·) (· < ·) r.2.remaining s.remaining } :=
  ⟨s.next, fun _ h => s.remaining_next h⟩

/-- All matches that `next` finds, and the scanner behind them. -/
def collect (s : Scanner V) : List (Match V) × Scanner V :=
  match s.nextShorter with
  | ⟨(none, s'), _⟩ => ([], s')
  | ⟨(some m, s'), _h⟩ =>
    let r := s'.collect
    (m :: r.1, r.2)
termination_by s.remaining
decreasing_by exact _h m rfl

theorem collect_eq (s : Scanner V) :
    s.collect =
      match s.next with
      | (none, s') => ([], s')
      | (some m, s') => (m :: s'.collect.1, s'.collect.2) := by
  rw [collect]
  split <;> rename_i h <;> rw [show s.next = _ from congrArg Subtype.val h]

end Scanner

end MaximalMunch
