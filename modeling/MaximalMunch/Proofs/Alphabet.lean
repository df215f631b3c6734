import MaximalMunch.Proofs.Determinization
import MaximalMunch.Proofs.LongestMatch
import MaximalMunch.Proofs.WellFormedness
import MaximalMunch.Token.Reader

/-!
# The alphabet of patterns

Patterns are made of the code points from 0 to `CodePoint.greatest`. A text with another character has no
tokens from there on.

- `Range.InAlphabet`      : a range of such code points, and `inAlphabet_complement`
- `Tree.Sound`            : a tree over such ranges whose bounds are in order
- `Token.Table.Lexical`   : the automaton of a table reads such code points and the end mark
- `Dialect.inAlphabet_tokens` : so the tokens of any text denote characters of the alphabet
-/

namespace MaximalMunch

namespace Range

/-- A proper range of code points that a pattern can match. -/
structure InAlphabet (r : Range) : Prop where
  lo_nonneg : 0 ≤ r.lo
  proper : r.lo ≤ r.hi
  hi_le : r.hi ≤ CodePoint.greatest

instance (r : Range) : Decidable r.InAlphabet :=
  decidable_of_iff (0 ≤ r.lo ∧ r.lo ≤ r.hi ∧ r.hi ≤ CodePoint.greatest)
    ⟨fun h => ⟨h.1, h.2.1, h.2.2⟩, fun h => ⟨h.1, h.2, h.3⟩⟩

theorem InAlphabet.bounds {r : Range} (h : r.InAlphabet) {p : Int} (hp : r.Covers p) :
    0 ≤ p ∧ p ≤ CodePoint.greatest :=
  ⟨Int.le_trans h.lo_nonneg hp.1, Int.le_trans hp.2 h.hi_le⟩

theorem inAlphabet_any : any.InAlphabet := by
  decide

theorem inAlphabet_gaps {next : Int} {rs : List Range} (hnext : 0 ≤ next)
    (hrs : ∀ r ∈ rs, r.InAlphabet) : ∀ r ∈ gaps next rs, r.InAlphabet := by
  induction rs generalizing next with
  | nil =>
      intro r hr
      rw [gaps] at hr
      split at hr
      · obtain rfl : r = ⟨next, CodePoint.greatest⟩ := by simpa using hr
        exact ⟨hnext, by assumption, Int.le_refl _⟩
      · exact absurd hr (by simp)
  | cons x xs ih =>
      intro r hr
      have hx := hrs x (by simp)
      have hhi := hx.hi_le
      have hproper := hx.proper
      have hxs : ∀ r ∈ gaps (max next (x.hi + 1)) xs, r.InAlphabet :=
        ih (by omega) fun r hr => hrs r (List.mem_cons_of_mem _ hr)
      rw [gaps] at hr
      split at hr
      · rcases List.mem_cons.1 hr with rfl | hr
        · exact ⟨hnext, by simp only; omega, by simp only; omega⟩
        · exact hxs r hr
      · exact hxs r hr

/-- What a class leaves out lies in the alphabet, too. -/
theorem inAlphabet_complement {rs : List Range} (h : ∀ r ∈ rs, r.InAlphabet) :
    ∀ r ∈ complement rs, r.InAlphabet :=
  inAlphabet_gaps (Int.le_refl 0) fun r hr => h r (List.mem_mergeSort.1 hr)

end Range

/-- A character that a pattern can match. -/
def CodePoint.CharInAlphabet (c : Char) : Prop := ofChar c ≤ greatest

instance (c : Char) : Decidable (CodePoint.CharInAlphabet c) :=
  inferInstanceAs (Decidable (_ ≤ _))

theorem CodePoint.CharInAlphabet.range {c : Char} (h : CharInAlphabet c) :
    (Range.ofChar c).InAlphabet :=
  ⟨ofChar_nonneg c, Int.le_refl _, h⟩

/-! ## Trees over the alphabet -/

namespace Tree

/-- The ranges of a node lie in the alphabet, and the bounds of a repetition are in order. -/
def SoundNode (t : Tree) : Prop := t.RangesOf Range.InAlphabet ∧ t.BoundsInOrder

/-- A tree that a pattern can stand for. -/
def Sound (t : Tree) : Prop := t.Forall SoundNode

theorem Sound.ordered {t : Tree} (h : t.Sound) : t.Ordered :=
  Forall.imp (fun _ hnode => hnode.2) h

theorem Sound.proper {t : Tree} (h : t.Sound) : t.Forall (RangesOf Range.Proper) := by
  refine Forall.imp (fun u hnode => ?_) h
  cases u with
  | characters rs =>
      exact fun r hr => (hnode.1 r hr).proper
  | sequence | choice | repetition => exact trivial

/-- The words of a tree are words over the alphabet. -/
theorem Sound.bounds_of_spells {t : Tree} {w : List Int} (hw : t.Spells w) (h : t.Sound) :
    ∀ p ∈ w, 0 ≤ p ∧ p ≤ CodePoint.greatest := by
  induction hw with
  | characters hr hp =>
      intro x hx
      cases h with
      | characters hnode =>
          obtain rfl : x = _ := by simpa using hx
          exact (hnode.1 _ hr).bounds hp
  | nil =>
      intro x hx
      exact absurd hx (by simp)
  | cons _ _ ihu ihv =>
      intro x hx
      cases h with
      | sequence hnode hts =>
          rcases List.mem_append.1 hx with hx | hx
          · exact ihu (hts _ (by simp)) x hx
          · exact ihv (.sequence ⟨trivial, trivial⟩ fun u hu => hts u (by simp [hu])) x hx
  | choice ht _ ih =>
      cases h with
      | choice _ hts =>
          exact ih (hts _ ht)
  | repetition _ _ _ ih =>
      intro x hx
      cases h with
      | repetition _ ht =>
          rcases List.mem_flatten.1 hx with ⟨u, hu, hxu⟩
          exact ih u hu ht x hxu

end Tree

/-! ## Tokens of the alphabet -/

namespace Token

namespace Table

open CodePoint MaximalMunch.NFA

/-- The rows and the backslash sequences of a table lie in the alphabet, but for the end of the text. -/
structure InAlphabet (t : Table) : Prop where
  rows : ∀ row ∈ t.rows, row.1.InAlphabet ∨ row.1 = .point endMark
  escapes : ∀ e ∈ t.escapes, CharInAlphabet e.1 ∧ CharInAlphabet e.2

/-- An automaton that reads the alphabet and the end mark, and denotes characters of the alphabet. -/
structure Lexical (n : NFA Lexeme) : Prop where
  wellFormed : n.WellFormed
  ranges : n.Ranges fun r => r.InAlphabet ∨ r = .point endMark
  escaped : ∀ q x, n.value? q = some (.escaped x) → CharInAlphabet x

variable {n : NFA Lexeme} {t : Table}

theorem Lexical.addState (h : Lexical n) {v : Option Lexeme}
    (hv : ∀ x, v = some (.escaped x) → CharInAlphabet x) : Lexical (n.addState v) where
  wellFormed := h.wellFormed.addState v
  ranges := h.ranges.addState v
  escaped := fun q x hx => by
    rw [value?_addState] at hx
    split at hx
    · exact hv x hx
    · exact h.escaped q x hx

theorem Lexical.addEdge (h : Lexical n) (source : Nat) {r : Range} (hr : r.InAlphabet ∨ r = .point endMark)
    {target : Nat} (htarget : target < n.size) : Lexical (n.addEdge source r target) where
  wellFormed := by
    refine h.wellFormed.addEdges source (fun x hx => ?_) htarget
    obtain rfl : x = r := List.mem_singleton.1 hx
    rcases hr with hr | rfl
    · exact hr.proper
    · exact Int.le_refl _
  ranges := h.ranges.addEdges source (by simpa using hr) target
  escaped := fun q x hx => by
    rw [NFA.addEdge, value?_addEdges] at hx
    exact h.escaped q x hx

theorem Lexical.accept (h : Lexical n) (source : Nat) {r : Range} {l : Lexeme}
    (hr : r.InAlphabet ∨ r = .point endMark) (hl : ∀ x, l = .escaped x → CharInAlphabet x) :
    Lexical (accept n source r l) :=
  (h.addState fun x hx => hl x (Option.some.inj hx)).addEdge source hr (by simp)

@[simp] theorem size_accept (n : NFA Lexeme) (source : Nat) (r : Range) (l : Lexeme) :
    (accept n source r l).size = n.size + 1 := by
  simp [Table.accept]

theorem size_addRow_ge (t : Table) (n : NFA Lexeme) (row : Range × Target) : n.size ≤ (t.addRow n row).size := by
  unfold addRow
  split <;> simp

theorem lexical_sequences (ht : t.InAlphabet) : Lexical t.sequences ∧ backslash < t.sequences.size := by
  refine List.foldlRecOn t.escapes _ (motive := fun n => Lexical n ∧ backslash < n.size) ⟨?_, by decide⟩ ?_
  · exact ⟨WellFormed.empty.addState none, Ranges.empty.addEmpty, by simp⟩
  · rintro n ⟨hn, hsize⟩ e he
    obtain ⟨hfirst, hsecond⟩ := ht.escapes e he
    refine ⟨hn.accept backslash (Or.inl hfirst.range) fun x hx => ?_, ?_⟩
    · obtain rfl : e.2 = x := by simpa using hx
      exact hsecond
    · rw [size_accept]
      omega

theorem lexical_automaton (ht : t.InAlphabet) : Lexical t.automaton ∧ t.literal < t.automaton.size := by
  obtain ⟨hsequences, hbackslash⟩ := lexical_sequences ht
  refine List.foldlRecOn t.rows _ (motive := fun n => Lexical n ∧ t.literal < n.size) ⟨?_, ?_⟩ ?_
  · exact (hsequences.addState (by simp)).addState (by simp)
  · simp [literal, start]
  · rintro n ⟨hn, hsize⟩ row hrow
    refine ⟨?_, Nat.lt_of_lt_of_le hsize (size_addRow_ge t n row)⟩
    have hbackslash : backslash < n.size := by
      unfold literal start at hsize
      omega
    unfold addRow
    split
    · exact hn.accept t.start (ht.rows row hrow) (by simp)
    · exact hn.accept t.start (ht.rows row hrow) (by simp)
    · exact hn.addEdge t.start (ht.rows row hrow) hsize
    · exact hn.addEdge t.start (ht.rows row hrow) hbackslash

/-- The tokens of a table begin in a state of its automaton. -/
theorem start_lt_size (ht : t.InAlphabet) : t.start < t.automaton.size :=
  Nat.lt_of_succ_lt (lexical_automaton ht).2

/-- A path reads the alphabet and end marks. -/
theorem Lexical.bounds_of_path (h : Lexical n) {s q : Nat} {w : List Int} (hw : Path n.Step s w q) :
    ∀ p ∈ w, (0 ≤ p ∧ p ≤ greatest) ∨ p = endMark := by
  induction hw with
  | nil =>
      intro p hp
      exact absurd hp (by simp)
  | step hstep _ ih =>
      intro p hp
      rcases List.mem_append.1 hp with hp | hp
      · cases hstep with
        | silent =>
            exact absurd hp (by simp)
        | edge hmem hcov =>
            obtain rfl : p = _ := by simpa using hp
            rcases h.ranges _ _ hmem with hr | hr
            · exact Or.inl (hr.bounds hcov)
            · rw [hr, Range.covers_point_iff] at hcov
              exact Or.inr hcov
      · exact ih p hp

/-- The lexer of a table takes words over the alphabet only, and denotes characters of the alphabet. -/
theorem output?_lexer (ht : t.InAlphabet) {w : List Int} {l : Lexeme}
    (hl : t.lexer.output? w = some l) :
    (∀ p ∈ w, (0 ≤ p ∧ p ≤ greatest) ∨ p = endMark) ∧ ∀ x, l = .escaped x → CharInAlphabet x := by
  have hlex := (lexical_automaton ht).1
  have hspec := determinize_spec hlex.wellFormed (start_lt_size ht)
  unfold lexer at hl
  split at hl
  · rename_i d hd
    rw [hd] at hspec
    rcases Option.bind_eq_some_iff.1 hl with ⟨q, hq, hvalue⟩
    rcases (hspec.value?_iff w q hq l).1 hvalue with ⟨s, hs, hsl⟩
    exact ⟨hlex.bounds_of_path hs, fun x hx => hlex.escaped s x (by rw [hsl, hx])⟩
  · -- Without edges there is the empty word only, and it has no value.
    rcases Option.bind_eq_some_iff.1 hl with ⟨q, -, hvalue⟩
    have hnone : DFA.value? { states := #[{}], start := 0 } q = (none : Option Lexeme) := by
      rcases q with _ | q <;> rfl
    rw [hnone] at hvalue
    exact absurd hvalue (by simp)

end Table

end Token

namespace Tokens

open CodePoint Token

/-- All tokens denote characters of the alphabet. -/
def InAlphabet : Tokens → Prop
  | token _ c _ rest => CharInAlphabet c ∧ rest.InAlphabet
  | ended _ => True
  | failed _ => True

/-- A lexeme that captures something begins in the alphabet, and so does what it denotes. -/
theorem charInAlphabet_lexeme {t : Table} (ht : t.InAlphabet) {s : Scanner Lexeme}
    (hauto : s.automaton = t.lexer) (hbuf : Scanner.Buffered s.ahead s.input.rest) {m : Match Lexeme}
    (hm : s.tryNext.1 = some m) (hc : m.capture.toList ≠ []) :
    CharInAlphabet (m.capture.toList.head hc) ∧ ∀ x, m.value = .escaped x → CharInAlphabet x := by
  have hx : s.exhausted = false := by
    cases hx : s.exhausted with
    | false => rfl
    | true =>
        simp [Scanner.tryNext, hx] at hm
  rcases Scanner.tryNext_spec hbuf hx with ⟨marks, -, ⟨k, v, hlongest, htakes⟩ | ⟨-, hstays⟩⟩
  · rw [htakes.found] at hm
    obtain rfl := Option.some.inj hm
    have hout := hlongest.2.2.1
    rw [hauto] at hout
    rcases Table.output?_lexer ht hout with ⟨hword, hescaped⟩
    refine ⟨?_, hescaped⟩
    simp only [String.toList_ofList] at hc ⊢
    have hmem : ofChar ((s.text.take k).head hc) ∈ (ofText s.text marks).take k := by
      rw [Scanner.take_ofText_eq]
      exact List.mem_append_left _ (List.mem_map_of_mem (List.head_mem hc))
    rcases hword _ hmem with hbounds | hmark
    · exact hbounds.2
    · -- A character is not an end mark.
      have hnonneg := ofChar_nonneg ((s.text.take k).head hc)
      rw [hmark] at hnonneg
      exact absurd hnonneg (by decide)
  · -- An empty capture is no token.
    rw [hstays.found] at hm
    rcases Option.map_eq_some_iff.1 hm with ⟨v, -, rfl⟩
    exact absurd rfl hc

theorem inAlphabet_ofScanner {t : Table} (ht : t.InAlphabet) (s : Scanner Lexeme)
    (hauto : s.automaton = t.lexer) (hbuf : Scanner.Buffered s.ahead s.input.rest) :
    (ofScanner s).InAlphabet := by
  -- The scanner behind a lexeme reads with the same automaton.
  have hnext : ∀ s s' : Scanner Lexeme, s.automaton = t.lexer → Scanner.Buffered s.ahead s.input.rest →
      s.tryNext.2 = s' → s'.automaton = t.lexer ∧ Scanner.Buffered s'.ahead s'.input.rest := by
    rintro s s' hauto hbuf rfl
    exact ⟨(Scanner.automaton_tryNext s).trans hauto, Scanner.buffered_tryNext hbuf⟩
  fun_induction ofScanner s with
  | case1 | case2 | case3 => exact trivial
  | case4 s m s' hlost hlex hc k hk ih =>
      have heq : s.tryNext = (some m, s') := congrArg Subtype.val hlex
      rcases hnext s s' hauto hbuf (by rw [heq]) with ⟨hauto', hbuf'⟩
      exact ⟨(charInAlphabet_lexeme ht hauto hbuf (by rw [heq]) hc).1, ih hauto' hbuf'⟩
  | case5 s m s' hlost hlex hc x hx ih =>
      have heq : s.tryNext = (some m, s') := congrArg Subtype.val hlex
      rcases hnext s s' hauto hbuf (by rw [heq]) with ⟨hauto', hbuf'⟩
      exact ⟨(charInAlphabet_lexeme ht hauto hbuf (by rw [heq]) hc).2 x hx, ih hauto' hbuf'⟩

end Tokens

theorem Dialect.inAlphabet_table (d : Dialect) : d.table.InAlphabet := by
  cases d with
  | regex => exact ⟨by decide, by decide⟩
  | glob => exact ⟨by decide, by decide⟩

/-- The tokens of any text denote characters of the alphabet. -/
theorem Dialect.inAlphabet_tokens (d : Dialect) (pattern : String) : (d.tokens pattern).InAlphabet := by
  refine Tokens.inAlphabet_ofScanner d.inAlphabet_table _ ?_ (Scanner.Buffered.nil _)
  cases d <;> rfl

end MaximalMunch
