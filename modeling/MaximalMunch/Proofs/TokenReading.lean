import MaximalMunch.Proofs.TableAutomaton

/-!
# Reading tokens off a table

The scanner of a token table hands out what one reads off the table from left to right, one character or one
backslash sequence at a time.

- `Token.Table.reading`              : the tokens of a text, read off the table
- `Token.Table.front?`               : the lexeme at the beginning of a text
- `Token.Table.tryNext_front`        : the scanner takes just this lexeme
- `Dialect.tokens_eq_reading`        : so the tokens of a pattern are read off the table
- `Tokens.reads`                     : what so many reads of the tokens hand out
- `Token.reads_eq_reads`             : reads of a scanner hand out the tokens, and fail behind their end
- `Tokens.upTo_reading_append`       : what follows a token does not change it
- `Dialect.reads_correct`            : all this for the two dialects
-/

namespace MaximalMunch

open CodePoint MaximalMunch.NFA

namespace Token

namespace Table

/-- The kind of a plain character. -/
def kind? (t : Table) (c : Char) : Option Kind :=
  (t.rows.find? fun row => row.1.Covers (ofChar c)).bind fun row => row.2.kind?

/-- What a backslash sequence denotes, by its second character. -/
def escape? (t : Table) (c : Char) : Option Char := (t.escapes.find? fun e => e.1 = c).map Prod.snd

/-- The tokens of a text whose first character has the position `p`. -/
def reading (t : Table) (p : Nat) : List Char → Tokens
  | [] => .ended (p + 1)
  | '\\' :: cs =>
    match cs with
    | [] => .failed p
    | x :: rest =>
      match t.escape? x with
      | some y => .token .escape y (p + 2) (reading t (p + 2) rest)
      | none => .failed p
  | c :: rest =>
    match t.kind? c with
    | some k => .token k c (p + 1) (reading t (p + 1) rest)
    | none => .failed p

/-- The lexeme at the beginning of a text, and how many code points it takes. -/
def front? (t : Table) : List Char → Option (Nat × Lexeme)
  | [] => some (1, .finish)
  | c :: rest =>
    if c = '\\' then (rest.head?.bind t.escape?).map fun y => (2, .escaped y)
    else (t.kind? c).map fun k => (1, .plain k)

variable {t : Table}

/-- Looking for the first element finds the only one. -/
theorem find?_bind_eq_some_iff {α β : Type} {P : α → Prop} [DecidablePred P] {as : List α} {f : α → Option β}
    {b : β} (h : as.Pairwise fun a a' => ¬ (P a ∧ P a')) :
    (as.find? fun a => P a).bind f = some b ↔ ∃ a ∈ as, P a ∧ f a = some b := by
  constructor
  · intro hfind
    obtain ⟨a, ha, hb⟩ := Option.bind_eq_some_iff.1 hfind
    exact ⟨a, List.mem_of_find?_eq_some ha, by simpa using List.find?_some ha, hb⟩
  · rintro ⟨a, ha, hPa, hb⟩
    cases hfind : as.find? fun a => P a with
    | none =>
        exact absurd hPa (by simpa using List.find?_eq_none.1 hfind a ha)
    | some found =>
        have hfound : P found := by simpa using List.find?_some hfind
        rwa [eq_of_pairwise h (List.mem_of_find?_eq_some hfind) ha hfound hPa]

theorem kind?_eq_some_iff (ht : t.Readable) {c : Char} {k : Kind} :
    t.kind? c = some k ↔ ∃ row ∈ t.rows, row.1.Covers (ofChar c) ∧ row.2.kind? = some k :=
  find?_bind_eq_some_iff (ht.rows_apart (ofChar c))

theorem escape?_eq_some_iff (ht : t.Readable) {x y : Char} :
    t.escape? x = some y ↔ ∃ e ∈ t.escapes, e.1 = x ∧ e.2 = y := by
  rw [escape?, Option.map_eq_bind, find?_bind_eq_some_iff (ht.escapes_apart x)]
  simp

/-- A row over the backslash is that of the backslash sequences. -/
theorem eq_escape_of_covers (ht : t.Readable) {row : Range × Target} (hrow : row ∈ t.rows)
    (hcovers : row.1.Covers (ofChar '\\')) : row = one '\\' .escape :=
  eq_of_pairwise (ht.rows_apart _) hrow ht.escape_mem hcovers (Range.covers_point_iff.2 rfl)

theorem kind?_backslash (ht : t.Readable) : t.kind? '\\' = none := by
  refine Option.eq_none_iff_forall_ne_some.2 fun k hk => ?_
  obtain ⟨row, hrow, hcovers, hkind⟩ := (kind?_eq_some_iff ht).1 hk
  rw [eq_escape_of_covers ht hrow hcovers] at hkind
  exact absurd hkind (by simp [one, span, Target.kind?])

/-- The row of the end of a text covers no character. -/
theorem not_covers_finish (c : Char) : ¬ finish.1.Covers (ofChar c) :=
  fun hcovers => endMark_ne_ofChar c (Range.covers_point_iff.1 hcovers).symm

/-- A row over a character has a kind, unless this is the backslash. -/
theorem exists_kind_of_covers (ht : t.Readable) {row : Range × Target} (hrow : row ∈ t.rows) {c : Char}
    (hcovers : row.1.Covers (ofChar c)) (hc : c ≠ '\\') : ∃ k, row.2.kind? = some k := by
  cases htarget : row.2 with
  | finish =>
      rw [ht.eq_finish row hrow htarget] at hcovers
      exact absurd hcovers (not_covers_finish c)
  | plain k =>
      exact ⟨k, rfl⟩
  | literal =>
      exact ⟨.literal, rfl⟩
  | escape =>
      rw [ht.eq_escape row hrow htarget] at hcovers
      exact absurd (ofChar_injective (Range.covers_point_iff.1 hcovers)) hc

/-- The front of a text has one or two code points, at most one of them behind the text. -/
theorem front?_bounds {cs : List Char} {m : Nat} {l : Lexeme} (h : t.front? cs = some (m, l)) :
    0 < m ∧ m ≤ 2 ∧ m ≤ cs.length + 1 := by
  unfold front? at h
  split at h
  · simp only [Option.some.injEq, Prod.mk.injEq] at h
    omega
  · rw [List.length_cons]
    split at h <;>
    · rcases Option.map_eq_some_iff.1 h with ⟨_, -, hm⟩
      simp only [Prod.mk.injEq] at hm
      omega

/-! ## What a readable table lists -/

theorem Lists.length_le {w : List Int} {l : Lexeme} (h : t.Lists w l) : w.length ≤ 2 := by
  cases h <;> simp

/-- The end of a text is listed. -/
theorem lists_mark (ht : t.Readable) : t.Lists [endMark] .finish :=
  .single ht.finish_mem (Range.covers_point_iff.2 rfl) rfl

theorem lists_mark_iff (ht : t.Readable) {l : Lexeme} : t.Lists [endMark] l ↔ l = .finish := by
  constructor
  · intro h
    exact h.unique ht (lists_mark ht)
  · rintro rfl
    exact lists_mark ht

theorem lists_char_iff (ht : t.Readable) {c : Char} {l : Lexeme} :
    t.Lists [ofChar c] l ↔ ∃ k, t.kind? c = some k ∧ l = .plain k := by
  simp only [kind?_eq_some_iff ht]
  constructor
  · intro h
    generalize hw : [ofChar c] = w at h
    cases h with
    | @single row _ _ hrow hcovers hlexeme =>
        rw [← (List.cons.inj hw).1] at hcovers
        rcases Target.lexeme?_eq_some_iff.1 hlexeme with ⟨hfinish, -⟩ | ⟨k, hk, rfl⟩
        · rw [ht.eq_finish row hrow hfinish] at hcovers
          exact absurd hcovers (not_covers_finish c)
        · exact ⟨k, ⟨row, hrow, hcovers, hk⟩, rfl⟩
    | escaped =>
        exact absurd (List.cons.inj hw).2 (by simp)
  · rintro ⟨k, ⟨row, hrow, hcovers, hk⟩, rfl⟩
    exact .single hrow hcovers (Target.lexeme?_eq_some_iff.2 (Or.inr ⟨k, hk, rfl⟩))

theorem lists_pair_iff (ht : t.Readable) {p q : Int} {l : Lexeme} :
    t.Lists [p, q] l ↔
      p = ofChar '\\' ∧ ∃ x y, q = ofChar x ∧ t.escape? x = some y ∧ l = .escaped y := by
  simp only [escape?_eq_some_iff ht]
  constructor
  · intro h
    cases h with
    | @escaped row _ e hrow hcovers hescape he =>
        rw [ht.eq_escape row hrow hescape] at hcovers
        exact ⟨Range.covers_point_iff.1 hcovers, e.1, e.2, rfl, ⟨e, he, rfl, rfl⟩, rfl⟩
  · rintro ⟨rfl, x, y, rfl, ⟨e, he, rfl, rfl⟩, rfl⟩
    exact .escaped ht.escape_mem (Range.covers_point_iff.2 rfl) rfl he

/-- A prefix of a text with end marks behind it is listed if it is the front of this text. -/
theorem lists_take_iff (ht : t.Readable) (cs : List Char) {marks m : Nat} (hmarks : 0 < marks)
    (hpos : 0 < m) (hle : m ≤ (ofText cs marks).length) {l : Lexeme} :
    t.Lists ((ofText cs marks).take m) l ↔ t.front? cs = some (m, l) := by
  have hlen : ((ofText cs marks).take m).length = m := List.length_take_of_le hle
  obtain ⟨k, rfl⟩ : ∃ k, marks = k + 1 := ⟨marks - 1, by omega⟩
  have hcons : ∀ c cs, ofText (c :: cs) (k + 1) = ofChar c :: ofText cs (k + 1) := by
    intro c cs
    simp [ofText]
  have hnil : ofText [] (k + 1) = endMark :: List.replicate k endMark := by
    simp [ofText, List.replicate_succ]
  obtain rfl | rfl | hlong : m = 1 ∨ m = 2 ∨ 3 ≤ m := by omega
  · -- One code point: the end mark, or a plain character.
    cases cs with
    | nil =>
        simp [hnil, lists_mark_iff ht, front?, eq_comm]
    | cons c cs =>
        rw [hcons, List.take_succ_cons, List.take_zero, lists_char_iff ht, front?]
        split
        · rename_i hc
          rw [hc, kind?_backslash ht]
          constructor
          · rintro ⟨kind, hkind, -⟩
            exact absurd hkind (by simp)
          · intro h
            rcases Option.map_eq_some_iff.1 h with ⟨y, -, hy⟩
            exact absurd (congrArg Prod.fst hy) (show 2 ≠ 1 by decide)
        · simp [Option.map_eq_some_iff, eq_comm (a := l)]
  · -- Two code points: a backslash sequence.
    cases cs with
    | nil =>
        rw [hnil] at hlen ⊢
        cases k with
        | zero => exact absurd hlen (by simp)
        | succ k =>
            simp [List.replicate_succ, lists_pair_iff ht, endMark_ne_ofChar, front?]
    | cons c cs =>
        rw [hcons, List.take_succ_cons, front?]
        cases cs with
        | nil =>
            simp [hnil, lists_pair_iff ht, endMark_ne_ofChar]
        | cons x cs =>
            have hchar : ∀ a b, ofChar a = ofChar b ↔ a = b := fun a b => ⟨ofChar_injective, congrArg _⟩
            by_cases hc : c = '\\' <;>
              simp [hcons, lists_pair_iff ht, hchar, hc, Option.map_eq_some_iff, eq_comm (a := l)]
  · -- No more than two.
    constructor
    · intro h
      have := h.length_le
      omega
    · intro h
      have := (front?_bounds h).2.1
      omega

/-! ## What the scanner takes -/

/-- The lexer of a readable table takes the front of a text. -/
theorem longest_front (ht : t.Readable) (cs : List Char) {marks : Nat} (hmarks : 0 < marks) :
    t.lexer.Longest (ofText cs marks) (t.front? cs) := by
  have hout : ∀ m l, 0 < m → m ≤ (ofText cs marks).length →
      (t.lexer.output? ((ofText cs marks).take m) = some l ↔ t.front? cs = some (m, l)) :=
    fun m l hpos hle => (output?_lexer_iff ht).trans (lists_take_iff ht cs hmarks hpos hle)
  cases hfront : t.front? cs with
  | none =>
      intro m hpos hle
      refine Option.eq_none_iff_forall_ne_some.2 fun l hl => ?_
      rw [hout m l hpos hle, hfront] at hl
      exact absurd hl (by simp)
  | some kl =>
      have hbounds := front?_bounds hfront
      have hle : kl.1 ≤ (ofText cs marks).length := by
        simp only [ofText, List.length_append, List.length_map, List.length_replicate]
        omega
      refine ⟨hbounds.1, hle, (hout kl.1 kl.2 hbounds.1 hle).2 hfront, fun m hlt hle => ?_⟩
      refine Option.eq_none_iff_forall_ne_some.2 fun l hl => ?_
      rw [hout m l (by omega) hle, hfront] at hl
      obtain rfl := Option.some.inj hl
      omega

/-- The front of the text is taken, if there is one. -/
theorem tryNext_front (ht : t.Readable) {s : Scanner Lexeme} (hs : s.Ready t.lexer)
    (hx : s.exhausted = false) :
    match t.front? s.text with
    | some (k, l) => s.Takes k l
    | none => s.Stays := by
  rcases Scanner.tryNext_spec hs.buffered hx with ⟨marks, hmarks, hfound⟩
  rw [hs.automaton] at hmarks hfound
  have hsize : 0 < t.lexer.size := DFA.size_pos_of_output? ((output?_lexer_iff ht).2 (lists_mark ht))
  have hfront := longest_front ht s.text (Nat.lt_of_lt_of_le hsize hmarks)
  rcases hfound with ⟨k, l, hlongest, htakes⟩ | ⟨hlongest, hstays⟩
  · rw [hfront.unique hlongest]
    exact htakes
  · rw [hfront.unique hlongest]
    exact hstays

/-- The lexer has no lexeme for the empty word. -/
theorem value?_start_lexer (ht : t.Readable) : t.lexer.value? t.lexer.start = none := by
  refine Option.eq_none_iff_forall_ne_some.2 fun l hl => ?_
  have hlists : t.Lists [] l := (output?_lexer_iff ht).1 hl
  cases hlists

/-- Where a text has no front, nothing is found. -/
theorem tryNext_of_stays (ht : t.Readable) {s : Scanner Lexeme} (hs : s.Ready t.lexer)
    (hstays : s.Stays) : s.tryNext.1 = none := by
  rw [hstays.found, hs.automaton, value?_start_lexer ht]
  rfl

/-! ## The tokens of a text -/

/-- What the scanner takes is what the reading goes on with. -/
theorem reading_cases (ht : t.Readable) {s : Scanner Lexeme} (hs : s.Ready t.lexer)
    (hx : s.exhausted = false) :
    (t.reading s.position s.text = .failed s.position ∧ s.Stays) ∨
    (t.reading s.position s.text = .ended (s.position + 1) ∧ s.text = [] ∧ s.Takes 1 .finish) ∨
    (∃ c rest k, s.text = c :: rest ∧ s.Takes 1 (.plain k) ∧
      t.reading s.position s.text = .token k c (s.position + 1) (t.reading (s.position + 1) rest)) ∨
    ∃ x rest y, s.text = '\\' :: x :: rest ∧ s.Takes 2 (.escaped y) ∧
      t.reading s.position s.text =
        .token .escape y (s.position + 2) (t.reading (s.position + 2) rest) := by
  have hfront := tryNext_front ht hs hx
  generalize s.text = cs at hfront ⊢
  fun_cases reading t s.position cs with
  | case1 =>
      exact Or.inr (Or.inl ⟨rfl, rfl, hfront⟩)
  | case2 =>
      exact Or.inl ⟨rfl, hfront⟩
  | case3 x rest y hy =>
      simp only [front?, if_true, List.head?_cons, Option.bind_some, hy, Option.map_some] at hfront
      exact Or.inr (Or.inr (Or.inr ⟨x, rest, y, rfl, hfront, rfl⟩))
  | case4 x rest hnone =>
      simp only [front?, if_true, List.head?_cons, Option.bind_some, hnone, Option.map_none] at hfront
      exact Or.inl ⟨rfl, hfront⟩
  | case5 c rest hc k hk =>
      simp only [front?, if_neg hc, hk, Option.map_some] at hfront
      exact Or.inr (Or.inr (Or.inl ⟨c, rest, k, rfl, hfront, rfl⟩))
  | case6 c rest hc hnone =>
      simp only [front?, if_neg hc, hnone, Option.map_none] at hfront
      exact Or.inl ⟨rfl, hfront⟩

end Table

end Token

namespace Tokens

open Token

/-- The tokens of a scanner begin with what `tryNext` finds. -/
theorem ofScanner_eq (s : Scanner Lexeme) :
    ofScanner s =
      match s.tryNext with
      | (none, s') => failed s'.position
      | (some m, s') =>
        match m.capture.toList, m.value with
        | [], _ => ended s'.position
        | _ :: _, .finish => ended s'.position
        | c :: _, .plain k => token k c s'.position (ofScanner s')
        | _ :: _, .escaped x => token .escape x s'.position (ofScanner s') := by
  rw [ofScanner]
  split
  · rename_i heq
    rw [show s.tryNext = _ from congrArg Subtype.val heq]
  · rename_i m s' hlost heq
    rw [show s.tryNext = (some m, s') from congrArg Subtype.val heq]
    cases hc : m.capture.toList with
    | nil =>
        simp [hc]
    | cons c cs =>
        cases hvalue : m.value <;> simp [hc, hvalue]

/-- The tokens of a scanner are read off the table, from where it stands in its text. -/
theorem ofScanner_eq_reading {t : Table} (ht : t.Readable) (s : Scanner Lexeme)
    (hs : s.Ready t.lexer) (hx : s.exhausted = false) :
    ofScanner s = t.reading s.position s.text := by
  -- Each token leaves less text.
  induction hlen : s.text.length using Nat.strongRecOn generalizing s with
  | _ len ih =>
    have hsplit : s.tryNext = (s.tryNext.1, s.tryNext.2) := rfl
    rw [ofScanner_eq, hsplit]
    rcases Table.reading_cases ht hs hx with
      ⟨hreading, hstays⟩ | ⟨hreading, hnil, htakes⟩ | ⟨c, rest, k, htext, htakes, hreading⟩ |
        ⟨x, rest, y, htext, htakes, hreading⟩
    · rw [hreading, Table.tryNext_of_stays ht hs hstays]
      exact congrArg failed hstays.position
    · rw [hreading, htakes.found, hnil]
      exact congrArg ended htakes.position
    · have hlt : s.tryNext.2.text.length < len := by
        rw [htakes.text, ← hlen, htext]
        simp
      have hnext := ih _ hlt s.tryNext.2 hs.tryNext (by simp [htakes.exhausted, htext]) rfl
      rw [htakes.position, htakes.text, htext] at hnext
      rw [hreading, htakes.found, htext]
      simpa [htakes.position] using hnext
    · have hlt : s.tryNext.2.text.length < len := by
        rw [htakes.text, ← hlen, htext]
        simp only [List.drop_succ_cons, List.drop_zero, List.length_cons]
        omega
      have hnext := ih _ hlt s.tryNext.2 hs.tryNext (by simp [htakes.exhausted, htext]) rfl
      rw [htakes.position, htakes.text, htext] at hnext
      rw [hreading, htakes.found, htext]
      simpa [htakes.position] using hnext

end Tokens

/-! ## Single reads -/

namespace Tokens

open Token

/-- What `k` reads of the tokens hand out. Behind the end of the text, and where there is no token, every read
fails and the position stays. -/
def reads : Tokens → Nat → List (Except SyntaxError Item × Nat)
  | _, 0 => []
  | token kind c p rest, k + 1 => (.ok ⟨some kind, some c⟩, p) :: rest.reads k
  | ended p, k + 1 => (.ok ⟨none, none⟩, p) :: reads (failed p) k
  | failed p, k + 1 => (.error ⟨.unrecognizedCharacter, p⟩, p) :: reads (failed p) k

/-- The tokens that end at most at the position `k`, each with the position behind it. -/
def upTo (k : Nat) : Tokens → List (Kind × Char × Nat)
  | token kind c p rest => if p ≤ k then (kind, c, p) :: rest.upTo k else []
  | ended _ => []
  | failed _ => []

end Tokens

namespace Token

theorem readNext_of_none {s : Scanner Lexeme} (h : s.tryNext.1 = none) :
    readNext s = (.error ⟨.unrecognizedCharacter, s.tryNext.2.position⟩, s.tryNext.2) := by
  have hsplit : s.tryNext = (s.tryNext.1, s.tryNext.2) := rfl
  rw [readNext, hsplit, h]

theorem readNext_of_some {s : Scanner Lexeme} {m : Match Lexeme} (h : s.tryNext.1 = some m) :
    readNext s = (.ok (.ofMatch m), s.tryNext.2) := by
  have hsplit : s.tryNext = (s.tryNext.1, s.tryNext.2) := rfl
  rw [readNext, hsplit, h]

/-- Every read behind the end of the text fails. -/
theorem reads_of_exhausted {s : Scanner Lexeme} (hx : s.exhausted = true) (k : Nat) :
    reads s k = (Tokens.failed s.position).reads k := by
  induction k with
  | zero => rfl
  | succ k ih =>
      have htry := Scanner.tryNext_of_exhausted hx
      have hread := readNext_of_none (congrArg Prod.fst htry)
      rw [congrArg Prod.snd htry] at hread
      rw [reads, hread, ih, Tokens.reads]

/-- Any number of reads hand out the tokens that are read off the table. -/
theorem reads_eq_reads {t : Table} (ht : t.Readable) (k : Nat) {s : Scanner Lexeme}
    (hs : s.Ready t.lexer) (hx : s.exhausted = false) :
    reads s k = (t.reading s.position s.text).reads k := by
  induction k generalizing s with
  | zero =>
      rw [reads, Tokens.reads]
  | succ k ih =>
      rw [reads]
      rcases Table.reading_cases ht hs hx with
        ⟨hreading, hstays⟩ | ⟨hreading, hnil, htakes⟩ | ⟨c, rest, kind, htext, htakes, hreading⟩ |
          ⟨x, rest, y, htext, htakes, hreading⟩
      · -- The scanner has not moved, so there is no token the next time either.
        have hnext := ih hs.tryNext hstays.exhausted
        rw [hstays.text, hstays.position, hreading] at hnext
        rw [readNext_of_none (Table.tryNext_of_stays ht hs hstays), hnext, hstays.position, hreading,
          Tokens.reads]
      · have hexhausted : s.tryNext.2.exhausted = true := by simp [htakes.exhausted, hnil]
        rw [readNext_of_some htakes.found, reads_of_exhausted hexhausted, htakes.position, hreading,
          Tokens.reads, hnil]
        rfl
      · have hnext := ih hs.tryNext (by simp [htakes.exhausted, htext])
        rw [htakes.text, htakes.position, htext, List.drop_succ_cons, List.drop_zero] at hnext
        rw [readNext_of_some htakes.found, hnext, htakes.position, hreading, Tokens.reads, htext]
        simp [Item.ofMatch]
      · have hnext := ih hs.tryNext (by simp [htakes.exhausted, htext])
        rw [htakes.text, htakes.position, htext, List.drop_succ_cons, List.drop_succ_cons,
          List.drop_zero] at hnext
        rw [readNext_of_some htakes.found, hnext, htakes.position, hreading, Tokens.reads]
        rfl

end Token

/-! ## What follows a token -/

namespace Tokens

open Token

variable {t : Table}

theorem upTo_reading_start (p : Nat) (cs : List Char) {k : Nat} (hk : k ≤ p) :
    (t.reading p cs).upTo k = [] := by
  fun_cases Table.reading t p cs with
  | case1 | case2 | case4 | case6 => rfl
  | case3 | case5 =>
      rw [upTo, if_neg (by omega)]

/-- The tokens inside a text stay the same, whatever follows the text. -/
theorem upTo_reading_append (p : Nat) (u v : List Char) :
    (t.reading p (u ++ v)).upTo (p + u.length) = (t.reading p u).upTo (p + u.length) := by
  fun_induction Table.reading t p u with
  | case1 p =>
      exact upTo_reading_start p v (by simp)
  | case2 p =>
      -- What follows may complete a backslash sequence, which then ends behind the text.
      cases v with
      | nil =>
          rfl
      | cons x v =>
          simp only [List.cons_append, List.nil_append, Table.reading, List.length_singleton]
          split
          · rw [upTo, if_neg (by omega)]
            rfl
          · rfl
  | case3 p x rest y hy ih =>
      have hlen : p + ('\\' :: x :: rest).length = p + 2 + rest.length := by
        simp only [List.length_cons]
        omega
      rw [hlen]
      simp only [List.cons_append, Table.reading, hy, upTo, ih]
  | case4 p x rest hnone =>
      simp only [List.cons_append, Table.reading, hnone, upTo]
  | case5 p c rest hc k hk ih =>
      have hlen : p + (c :: rest).length = p + 1 + rest.length := by
        rw [List.length_cons]
        omega
      rw [hlen]
      simp only [List.cons_append, Table.reading, hk, upTo, ih]
  | case6 p c rest hc hnone =>
      simp only [List.cons_append, Table.reading, hnone, upTo]

end Tokens

/-! ## The two dialects -/

namespace Dialect

open Token

theorem ready_ofString (d : Dialect) (pattern : String) :
    Scanner.Ready d.table.lexer (.ofString d.lexer pattern) := by
  have hlexer : d.lexer = d.table.lexer := by cases d <;> rfl
  rw [hlexer]
  exact Scanner.ready_ofString _ pattern

/-- The tokens of a pattern are read off the table of its dialect. -/
theorem tokens_eq_reading (d : Dialect) (pattern : String) :
    d.tokens pattern = d.table.reading 0 pattern.toList := by
  rw [tokens, Tokens.ofScanner_eq_reading d.readable_table _ (d.ready_ofString pattern) rfl,
    Scanner.text_ofString]
  rfl

/-- Each token of a pattern is at least one character. -/
theorem length_tokens_le (d : Dialect) (pattern : String) : (d.tokens pattern).length ≤ pattern.length := by
  have hlength : ∀ p cs, (d.table.reading p cs).length ≤ cs.length := by
    intro p cs
    fun_induction Token.Table.reading d.table p cs <;> simp only [Tokens.length, List.length_cons] <;> omega
  rw [tokens_eq_reading, ← String.length_toList]
  exact hlength 0 pattern.toList

/-- The rows of a dialect cover all characters of the alphabet. -/
theorem exists_row_iff (d : Dialect) (c : Char) :
    (∃ row ∈ d.table.rows, row.1.Covers (ofChar c)) ↔ CharInAlphabet c := by
  have hnonneg := ofChar_nonneg c
  have hgreatest : CharInAlphabet c ↔ ofChar c ≤ 65535 := Iff.rfl
  rw [hgreatest]
  generalize ofChar c = p at hnonneg
  -- The ends of the rows are numbers, so this is arithmetic.
  cases d <;>
  · simp only [table, Table.regex, Table.glob, Table.finish, Table.span, Table.one, Table.onward, Range.point,
      Range.Covers, List.mem_cons, List.not_mem_nil, or_false, exists_eq_or_imp, exists_eq_left, ofChar,
      Char.reduceToNat, greatest, endMark, Int.ofNat_eq_natCast]
    omega

/-- No two rows of a dialect cover one character. -/
theorem existsUnique_row_iff (d : Dialect) (c : Char) :
    (∃! row, row ∈ d.table.rows ∧ row.1.Covers (ofChar c)) ↔ CharInAlphabet c := by
  rw [← d.exists_row_iff c]
  constructor
  · rintro ⟨row, hrow, -⟩
    exact ⟨row, hrow⟩
  · rintro ⟨row, hrow, hcovers⟩
    exact ⟨row, ⟨hrow, hcovers⟩, fun other hother =>
      Table.eq_of_pairwise (d.readable_table.rows_apart (ofChar c)) hother.1 hrow hother.2 hcovers⟩

/-- Of the characters of the alphabet, only the backslash has no kind. -/
theorem exists_kind_iff (d : Dialect) (c : Char) :
    (∃ k, d.table.kind? c = some k) ↔ CharInAlphabet c ∧ c ≠ '\\' := by
  have ht := d.readable_table
  constructor
  · rintro ⟨k, hk⟩
    obtain ⟨row, hrow, hcovers, -⟩ := (Table.kind?_eq_some_iff ht).1 hk
    refine ⟨(d.exists_row_iff c).1 ⟨row, hrow, hcovers⟩, ?_⟩
    rintro rfl
    rw [Table.kind?_backslash ht] at hk
    exact absurd hk (by simp)
  · rintro ⟨hc, hback⟩
    obtain ⟨row, hrow, hcovers⟩ := (d.exists_row_iff c).2 hc
    obtain ⟨k, hk⟩ := Table.exists_kind_of_covers ht hrow hcovers hback
    exact ⟨k, (Table.kind?_eq_some_iff ht).2 ⟨row, hrow, hcovers, hk⟩⟩

/-- Every number of reads of a pattern hands out what one reads off the table of the dialect, and so does the
chain of all tokens. The table has just one row for each character of the alphabet and none for other characters,
and it gives a kind to all of them but the backslash. What stands behind a token does not change it. -/
theorem reads_correct (d : Dialect) (pattern : String) :
    (∀ k, reads (.ofString d.lexer pattern) k = (d.table.reading 0 pattern.toList).reads k) ∧
    d.tokens pattern = d.table.reading 0 pattern.toList ∧
    (∀ c, (∃! row, row ∈ d.table.rows ∧ row.1.Covers (ofChar c)) ↔ CharInAlphabet c) ∧
    (∀ c, (∃ k, d.table.kind? c = some k) ↔ CharInAlphabet c ∧ c ≠ '\\') ∧
    ∀ behind : String, (d.tokens (pattern ++ behind)).upTo pattern.toList.length =
      (d.tokens pattern).upTo pattern.toList.length := by
  refine ⟨fun k => ?_, d.tokens_eq_reading pattern, d.existsUnique_row_iff, d.exists_kind_iff, fun behind => ?_⟩
  · have hready := d.ready_ofString pattern
    have hreads := reads_eq_reads d.readable_table k hready rfl
    rwa [Scanner.text_ofString] at hreads
  · have happend := Tokens.upTo_reading_append (t := d.table) 0 pattern.toList behind.toList
    rw [Nat.zero_add, ← String.toList_append] at happend
    rw [tokens_eq_reading, tokens_eq_reading, happend]

end Dialect

end MaximalMunch
