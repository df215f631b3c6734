import Mathlib.Data.List.Pairwise
import MaximalMunch.Proofs.Alphabet

/-!
# The automaton of a token table

The edges of the start are the rows of the table, one for one, and the edges behind a backslash are the backslash
sequences. So the automaton accepts the end mark, each character of a row, and each backslash sequence. A table that
is readable has one meaning for each of these words, so that its lexer is the determinized automaton.

- `Token.Table.Lists`            : what a table says of a word
- `Token.Table.Adds`             : an automaton with more edges of one state, and `exists_adds_foldl`
- `Token.Table.Layout`           : the edges and the values of the automaton of a table
- `Token.Table.Layout.carries_iff`, `Token.Table.output?_lexer_iff` : it carries what the table lists
- `Token.Table.Readable`         : no two rows and no two backslash sequences meet
-/

namespace MaximalMunch

open CodePoint MaximalMunch.NFA

namespace Token

theorem Target.lexeme?_eq_none_iff {target : Target} : target.lexeme? = none ↔ target = .escape := by
  cases target <;> simp [Target.lexeme?]

/-- But for the end of a text, a lexeme of one code point is a plain token. -/
theorem Target.lexeme?_eq_some_iff {target : Target} {l : Lexeme} :
    target.lexeme? = some l ↔ target = .finish ∧ l = .finish ∨ ∃ k, target.kind? = some k ∧ l = .plain k := by
  cases target <;> simp [Target.lexeme?, Target.kind?, eq_comm]

namespace Table

/-- What a table says of a word. The end of a text is read as one end mark. -/
inductive Lists (t : Table) : List Int → Lexeme → Prop where
  | single {row : Range × Target} {p : Int} {l : Lexeme} :
      row ∈ t.rows → row.1.Covers p → row.2.lexeme? = some l → Lists t [p] l
  | escaped {row : Range × Target} {p : Int} {e : Char × Char} :
      row ∈ t.rows → row.1.Covers p → row.2 = .escape → e ∈ t.escapes → Lists t [p, ofChar e.1] (.escaped e.2)

theorem endMark_ne_ofChar (c : Char) : endMark ≠ ofChar c := by
  have := ofChar_nonneg c
  unfold endMark
  omega

/-! ## Adding edges to a state -/

/-- There are more states, and more edges of the state `source`. -/
structure Adds (source : Nat) (n n' : NFA Lexeme) (es : List Edge) : Prop where
  size_le : n.size ≤ n'.size
  edges : ∀ q, n'.edges q = n.edges q ++ if q = source then es else []
  silent : ∀ q, n'.silent q = n.silent q
  value? : ∀ q, q < n.size → n'.value? q = n.value? q

variable {n n' n₁ : NFA Lexeme} {source : Nat} {es es' : List Edge} {q : Nat}

theorem Adds.refl (source : Nat) (n : NFA Lexeme) : Adds source n n [] where
  size_le := Nat.le_refl _
  edges := by simp
  silent := fun _ => rfl
  value? := fun _ _ => rfl

theorem Adds.trans (h : Adds source n n₁ es) (h' : Adds source n₁ n' es') : Adds source n n' (es ++ es') where
  size_le := Nat.le_trans h.size_le h'.size_le
  edges := fun q => by
    rw [h'.edges, h.edges, List.append_assoc]
    split <;> rfl
  silent := fun q => (h'.silent q).trans (h.silent q)
  value? := fun q hq => (h'.value? q (Nat.lt_of_lt_of_le hq h.size_le)).trans (h.value? q hq)

theorem adds_addEdge (hsource : source < n.size) (r : Range) (target : Nat) :
    Adds source n (n.addEdge source r target) [.ofRange r target] where
  size_le := by simp
  edges := fun q => by simp [addEdge, edges_addEdges, hsource]
  silent := fun q => silent_addEdges n source [r] target q
  value? := fun q _ => value?_addEdges n source [r] target q

theorem adds_accept (hsource : source < n.size) (r : Range) (l : Lexeme) :
    Adds source n (accept n source r l) [.ofRange r n.size] where
  size_le := by simp
  edges := fun q => by simp [accept, addValue, addEdge, edges_addEdges, Nat.lt_succ_of_lt hsource]
  silent := fun q => by simp [accept, addValue, addEdge]
  value? := fun q hq => by
    rw [accept, addEdge, value?_addEdges, addValue, value?_addState, if_neg (Nat.ne_of_lt hq)]

theorem value?_accept (n : NFA Lexeme) (source : Nat) (r : Range) (l : Lexeme) :
    (accept n source r l).value? n.size = some l := by
  rw [accept, addEdge, value?_addEdges, addValue, value?_addState, if_pos rfl]

/-- A number without a state has no value. -/
theorem lt_size_of_value? {l : Lexeme} (h : n.value? q = some l) : q < n.size := by
  by_contra hge
  rw [value?_eq_none (Nat.not_lt.1 hge)] at h
  exact absurd h (by simp)

/-- The state `q` has a lexeme, or it is the one behind a backslash. -/
def Arrives (n : NFA Lexeme) (q : Nat) : Option Lexeme → Prop
  | some l => n.value? q = some l
  | none => q = backslash

theorem Adds.arrives (h : Adds source n n' es) {o : Option Lexeme} (ha : Arrives n q o) : Arrives n' q o := by
  cases o with
  | none =>
      exact ha
  | some l =>
      exact (h.value? q (lt_size_of_value? ha)).trans ha

/-- The edges of a state are those of a list, one for one: over the ranges of its elements to what they mean. -/
def Follow {α : Type} (n : NFA Lexeme) (range : α → Range) (meaning : α → Option Lexeme) : List α → List Edge → Prop :=
  List.Forall₂ fun a e => e.toRange = range a ∧ Arrives n e.target (meaning a)

theorem Follow.exists_element {α : Type} {range : α → Range} {meaning : α → Option Lexeme} {as : List α}
    {row : List Edge} (h : Follow n range meaning as row) {e : Edge} (he : e ∈ row) :
    ∃ a ∈ as, e.toRange = range a ∧ Arrives n e.target (meaning a) :=
  Powerset.exists_of_mem_right h he

theorem Follow.exists_edge {α : Type} {range : α → Range} {meaning : α → Option Lexeme} {as : List α}
    {row : List Edge} (h : Follow n range meaning as row) {a : α} (ha : a ∈ as) :
    ∃ e ∈ row, e.toRange = range a ∧ Arrives n e.target (meaning a) :=
  Powerset.exists_of_mem_right (List.Forall₂.flip h) ha

theorem Adds.follow {α : Type} {range : α → Range} {meaning : α → Option Lexeme} {as : List α} {row : List Edge}
    (h : Adds source n n' es) (hrow : Follow n range meaning as row) : Follow n' range meaning as row :=
  hrow.imp fun _ _ hae => ⟨hae.1, h.arrives hae.2⟩

/-- Steps that add an edge each add the edges of a list, as long as they keep what they need. -/
theorem exists_adds_foldl {α : Type} {I : NFA Lexeme → Prop} {range : α → Range} {meaning : α → Option Lexeme}
    {step : NFA Lexeme → α → NFA Lexeme} {as : List α} (hI : ∀ {n n' es}, Adds source n n' es → I n → I n')
    (hstep : ∀ n, I n → ∀ a ∈ as, ∃ q, Adds source n (step n a) [.ofRange (range a) q] ∧
      Arrives (step n a) q (meaning a)) (hn : I n) :
    ∃ es, Adds source n (as.foldl step n) es ∧ Follow (as.foldl step n) range meaning as es := by
  -- Each step changes the automaton, so the induction is over all of them that have what the steps need.
  induction as generalizing n with
  | nil =>
      exact ⟨[], Adds.refl source n, .nil⟩
  | cons a as ih =>
      obtain ⟨q, hfirst, harrives⟩ := hstep n hn a List.mem_cons_self
      obtain ⟨es, hrest, hfollow⟩ := ih (fun n hn b hb => hstep n hn b (List.mem_cons_of_mem _ hb)) (hI hfirst hn)
      exact ⟨_, hfirst.trans hrest, .cons ⟨rfl, hrest.arrives harrives⟩ hfollow⟩

/-! ## The edges of the automaton of a table -/

/-- The edges and the values of the automaton of a table. -/
structure Layout (t : Table) (n : NFA Lexeme) : Prop where
  rows : Follow n Prod.fst (fun row => row.2.lexeme?) t.rows (n.edges t.start)
  escapes : Follow n (fun e => .ofChar e.1) (fun e => some (.escaped e.2)) t.escapes (n.edges backslash)
  edges : ∀ q, q ≠ t.start → q ≠ backslash → n.edges q = []
  silent : ∀ q, n.silent q = []
  value?_start : n.value? t.start = none
  value?_backslash : n.value? backslash = none

variable {t : Table}

/-- The backslash sequences are added behind one state. -/
theorem exists_adds_sequences (t : Table) :
    ∃ es, Adds backslash NFA.empty.addEmpty t.sequences es ∧
      Follow t.sequences (fun e => .ofChar e.1) (fun e => some (.escaped e.2)) t.escapes es :=
  exists_adds_foldl (I := fun n => backslash < n.size) (fun h hn => Nat.lt_of_lt_of_le hn h.size_le)
    (fun n hn e _ => ⟨n.size, adds_accept hn _ _, value?_accept n _ _ _⟩) (by decide)

theorem adds_addRow (n : NFA Lexeme) (hn : Arrives n t.literal (some (.plain .literal))) (row : Range × Target) :
    ∃ q, Adds t.start n (t.addRow n row) [.ofRange row.1 q] ∧ Arrives (t.addRow n row) q row.2.lexeme? := by
  have hstart : t.start < n.size := Nat.lt_of_succ_lt (lt_size_of_value? hn)
  obtain ⟨r, target⟩ := row
  cases target with
  | finish =>
      exact ⟨n.size, adds_accept hstart r _, value?_accept n t.start r _⟩
  | plain k =>
      exact ⟨n.size, adds_accept hstart r _, value?_accept n t.start r _⟩
  | literal =>
      have hadds := adds_addEdge hstart r t.literal
      exact ⟨t.literal, hadds, hadds.arrives hn⟩
  | escape =>
      exact ⟨backslash, adds_addEdge hstart r backslash, rfl⟩

theorem layout_automaton (t : Table) : Layout t t.automaton := by
  obtain ⟨es, hsequences, hescapes⟩ := exists_adds_sequences t
  have hlt : backslash < t.start := Nat.lt_of_lt_of_le (by decide) hsequences.size_le
  -- The start and the place of all literals are new, and the rows then add edges of the start only.
  have hbase : Adds t.start t.sequences (t.sequences.addEmpty.addValue (.plain .literal)) [] :=
    { size_le := by
        rw [size_addValue, size_addEmpty]
        omega
      edges := fun q => by simp [addValue]
      silent := fun q => by simp [addValue]
      value? := fun q hq => by
        rw [addValue, value?_addState, size_addEmpty, if_neg (by omega), value?_addEmpty] }
  have hliteral : Arrives (t.sequences.addEmpty.addValue (.plain .literal)) t.literal (some (.plain .literal)) := by
    rw [Arrives, addValue, value?_addState, size_addEmpty, literal, start, if_pos rfl]
  obtain ⟨rows, hrows, hfollow⟩ := exists_adds_foldl (I := fun n => Arrives n t.literal (some (.plain .literal)))
    (fun h hn => h.arrives hn) (fun n hn row _ => adds_addRow n hn row) hliteral
  have hautomaton : Adds t.start t.sequences t.automaton rows := hbase.trans hrows
  have hedges : ∀ q, t.automaton.edges q =
      (if q = backslash then es else []) ++ if q = t.start then rows else [] := by
    intro q
    rw [hautomaton.edges, hsequences.edges]
    simp
  have hne : t.start ≠ backslash := Nat.ne_of_gt hlt
  refine ⟨?_, ?_, fun q hq hq' => ?_, fun q => ?_, ?_, ?_⟩
  · rw [hedges, if_neg hne, if_pos rfl, List.nil_append]
    exact hfollow
  · rw [hedges, if_pos rfl, if_neg hne.symm, List.append_nil]
    exact hautomaton.follow hescapes
  · rw [hedges, if_neg hq', if_neg hq, List.nil_append]
  · rw [hautomaton.silent, hsequences.silent]
    simp
  · rw [automaton, hrows.value? t.start (by simp only [size_addValue, size_addEmpty, start]; omega), addValue,
      value?_addState, size_addEmpty, if_neg (by simp only [start]; omega), value?_addEmpty]
    exact value?_eq_none (Nat.le_refl _)
  · rw [hautomaton.value? backslash hlt, hsequences.value? backslash (by decide)]
    rfl

section Layout

variable (h : Layout t n) {w : List Int} {l : Lexeme}
include h

/-- A path from a state without a lexeme to one with a lexeme begins with an edge. -/
theorem Layout.exists_first (hq : n.value? q = none) {r : Nat} (hw : Path n.Step q w r) (hl : n.value? r = some l) :
    ∃ e ∈ n.edges q, ∃ p w', w = p :: w' ∧ e.toRange.Covers p ∧ Path n.Step e.target w' r := by
  cases hw with
  | nil =>
      rw [hq] at hl
      exact absurd hl (by simp)
  | step hstep hrest =>
      cases hstep with
      | silent hmem =>
          rw [h.silent] at hmem
          exact absurd hmem (by simp)
      | edge he hcov =>
          exact ⟨_, he, _, _, rfl, hcov, hrest⟩

/-- Nothing leaves a state that has a lexeme. -/
theorem Layout.eq_of_value? (hl : n.value? q = some l) {r : Nat} (hw : Path n.Step q w r) : r = q ∧ w = [] := by
  have hstart : q ≠ t.start := by
    rintro rfl
    simp [h.value?_start] at hl
  have hbackslash : q ≠ backslash := by
    rintro rfl
    simp [h.value?_backslash] at hl
  refine Path.eq_of_sink (fun o y hstep => ?_) hw
  cases hstep with
  | silent hmem =>
      rw [h.silent] at hmem
      exact absurd hmem (by simp)
  | edge he _ =>
      rw [h.edges q hstart hbackslash] at he
      exact absurd he (by simp)

/-- Behind a backslash there is one character of a backslash sequence. -/
theorem Layout.path_backslash {r : Nat} (hw : Path n.Step backslash w r) (hl : n.value? r = some l) :
    ∃ e ∈ t.escapes, w = [ofChar e.1] ∧ l = .escaped e.2 := by
  obtain ⟨edge, hedge, p, w', rfl, hcov, hrest⟩ := h.exists_first h.value?_backslash hw hl
  obtain ⟨e, hmem, hrange, hvalue⟩ := h.escapes.exists_element hedge
  rw [hrange] at hcov
  obtain rfl := Range.covers_point_iff.1 hcov
  obtain ⟨rfl, rfl⟩ := h.eq_of_value? hvalue hrest
  exact ⟨e, hmem, rfl, Option.some.inj (hl.symm.trans hvalue)⟩

/-- The automaton of a table carries what the table lists. -/
theorem Layout.carries_iff : n.Carries t.start w l ↔ t.Lists w l := by
  constructor
  · rintro ⟨r, hw, hl⟩
    obtain ⟨edge, hedge, p, w', rfl, hcov, hrest⟩ := h.exists_first h.value?_start hw hl
    obtain ⟨row, hrow, hrange, harrives⟩ := h.rows.exists_element hedge
    rw [hrange] at hcov
    -- The row leads to a lexeme, or to the place behind a backslash.
    cases hmeaning : row.2.lexeme? with
    | some k =>
        rw [hmeaning] at harrives
        obtain ⟨rfl, rfl⟩ := h.eq_of_value? harrives hrest
        obtain rfl : l = k := Option.some.inj (hl.symm.trans harrives)
        exact .single hrow hcov hmeaning
    | none =>
        rw [hmeaning, Arrives] at harrives
        rw [harrives] at hrest
        obtain ⟨e, hmem, rfl, rfl⟩ := h.path_backslash hrest hl
        exact .escaped hrow hcov (Target.lexeme?_eq_none_iff.1 hmeaning) hmem
  · rintro (⟨hrow, hcov, hmeaning⟩ | @⟨row, p, c, hrow, hcov, hescape, hmem⟩)
    · obtain ⟨e, he, hrange, harrives⟩ := h.rows.exists_edge hrow
      rw [hmeaning] at harrives
      exact ⟨e.target, Path.single (StepOver.edge he (hrange ▸ hcov)), harrives⟩
    · obtain ⟨e, he, hrange, harrives⟩ := h.rows.exists_edge hrow
      obtain ⟨e', he', hrange', hvalue⟩ := h.escapes.exists_edge hmem
      rw [Target.lexeme?_eq_none_iff.2 hescape, Arrives] at harrives
      have hsecond : e'.toRange.Covers (ofChar c.1) := by
        rw [hrange']
        exact Range.covers_point_iff.2 rfl
      have hfirst : Path n.Step t.start [p] e.target := Path.single (StepOver.edge he (hrange ▸ hcov))
      rw [harrives] at hfirst
      exact ⟨e'.target, hfirst.append (Path.single (StepOver.edge he' hsecond)), hvalue⟩

end Layout

/-! ## Tables without two meanings for a word -/

/-- The rows ascend, those of the end of a text and of the backslash are among them, and no two backslash sequences are
the same. -/
structure Readable (t : Table) : Prop extends InAlphabet t where
  ascending : t.rows.Pairwise fun a b => a.1.hi < b.1.lo
  finish_mem : finish ∈ t.rows
  eq_finish : ∀ row ∈ t.rows, row.2 = .finish → row = finish
  escape_mem : one '\\' .escape ∈ t.rows
  eq_escape : ∀ row ∈ t.rows, row.2 = .escape → row = one '\\' .escape
  distinct : t.escapes.Pairwise fun a b => a.1 ≠ b.1

/-- A test that no two elements of a list pass together singles out one element. -/
theorem eq_of_pairwise {α : Type} {P : α → Prop} {as : List α}
    (h : as.Pairwise fun a b => ¬ (P a ∧ P b)) {a b : α} (ha : a ∈ as) (hb : b ∈ as) (hPa : P a)
    (hPb : P b) : a = b := by
  have hsymm : Std.Symm fun a b => ¬ (P a ∧ P b) := ⟨fun _ _ hab hba => hab hba.symm⟩
  by_contra hne
  exact h.forall ha hb hne ⟨hPa, hPb⟩

/-- No two rows of a readable table cover one code point. -/
theorem Readable.rows_apart (ht : t.Readable) (p : Int) :
    t.rows.Pairwise fun a b => ¬ (a.1.Covers p ∧ b.1.Covers p) := by
  refine ht.ascending.imp fun hlt hboth => ?_
  -- One of the rows ends before the other begins.
  have := hboth.1.2
  have := hboth.2.1
  omega

/-- No two backslash sequences of a readable table have the same second character. -/
theorem Readable.escapes_apart (ht : t.Readable) (x : Char) :
    t.escapes.Pairwise fun a b => ¬ (a.1 = x ∧ b.1 = x) :=
  ht.distinct.imp fun hne hboth => hne (hboth.1.trans hboth.2.symm)

/-- A readable table says one thing of a word. -/
theorem Lists.unique (ht : t.Readable) {w : List Int} {k l : Lexeme} (hk : t.Lists w k)
    (hl : t.Lists w l) : k = l := by
  cases hk with
  | single hrow hp hmeaning =>
      generalize hw : [_] = w at hl
      cases hl with
      | single hrow' hp' hmeaning' =>
          obtain rfl := (List.cons.inj hw).1
          rw [eq_of_pairwise (ht.rows_apart _) hrow hrow' hp hp'] at hmeaning
          exact Option.some.inj (hmeaning.symm.trans hmeaning')
      | escaped =>
          exact absurd (List.cons.inj hw).2 (by simp)
  | escaped _ _ _ he =>
      generalize hw : [_, _] = w at hl
      cases hl with
      | single =>
          exact absurd (List.cons.inj hw).2 (by simp)
      | escaped _ _ _ he' =>
          have hchar := ofChar_injective (List.cons.inj (List.cons.inj hw).2).1
          rw [eq_of_pairwise (ht.escapes_apart _) he he' hchar rfl]

/-- The lexer of a readable table accepts what the table lists. -/
theorem output?_lexer_iff (ht : t.Readable) {w : List Int} {l : Lexeme} :
    t.lexer.output? w = some l ↔ t.Lists w l := by
  have hlayout := layout_automaton t
  have hwell := (lexical_automaton ht.toInAlphabet).1.wellFormed
  have hstart := start_lt_size ht.toInAlphabet
  obtain ⟨d, hd⟩ := exists_determinize hwell hstart fun w k l hk hl =>
    (hlayout.carries_iff.1 hk).unique ht (hlayout.carries_iff.1 hl)
  have hspec := determinize_spec hwell hstart
  rw [lexer]
  rw [hd] at hspec ⊢
  exact hspec.output?_iff.trans hlayout.carries_iff

end Table

end Token

theorem Dialect.readable_table (d : Dialect) : d.table.Readable := by
  cases d with
  | regex => exact ⟨Dialect.inAlphabet_table .regex, by decide, by decide, by decide, by decide, by decide, by decide⟩
  | glob => exact ⟨Dialect.inAlphabet_table .glob, by decide, by decide, by decide, by decide, by decide, by decide⟩

end MaximalMunch
