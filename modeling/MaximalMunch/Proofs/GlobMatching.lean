import MaximalMunch.Proofs.ClassGrammar
import MaximalMunch.Proofs.Scanning
import MaximalMunch.Proofs.TokenReading

/-!
# What globs match

A glob matches the texts that can be split into pieces, one for each of its elements.

- `Glob.Element`, `Element.Matches`, `Glob.Matches` : elements, and the texts that they match
- `Glob.Written`           : how the elements of a glob are written
- `Glob.parse_eq_ok_iff`   : the reader accepts the words of this grammar
- `Glob.spells_iff`        : the words of the tree of a glob are the texts that it matches
- `Dialect.glob_correct`   : so these are the texts that the automaton of the glob accepts
-/

namespace MaximalMunch

namespace Glob

open CodePoint Tokens

/-- An element of a glob. -/
inductive Element where
  | star
  | one
  | set (l : CharacterClass.Listing)
  | char (c : Char)

/-- The texts that an element matches. -/
inductive Element.Matches : Element → List Char → Prop where
  | star {u : List Char} : (∀ c ∈ u, CharInAlphabet c) → Matches star u
  | one {c : Char} : CharInAlphabet c → Matches one [c]
  | set {l : CharacterClass.Listing} {c : Char} : l.Contains c → Matches (set l) [c]
  | char {c : Char} : Matches (char c) [c]

/-- A text that can be split into pieces that the elements match in their order. -/
def Matches (es : List Element) (text : List Char) : Prop :=
  ∃ pieces : List (List Char), pieces.flatten = text ∧ List.Forall₂ Element.Matches es pieces

/-- How elements are written. A token without another meaning stands for its character. -/
inductive Written : List Token → List Element → Prop where
  | nil : Written [] []
  | star {t : Token} {w : List Token} {es : List Element} :
      t.kind = .zeroOrMore → Written w es → Written (t :: w) (.star :: es)
  | one {t : Token} {w : List Token} {es : List Element} :
      t.kind = .wildcard → Written w es → Written (t :: w) (.one :: es)
  | set {t : Token} {u w : List Token} {l : CharacterClass.Listing} {es : List Element} :
      t.kind = .classBegin → CharacterClass.Class u l → Written w es → Written (t :: (u ++ w)) (.set l :: es)
  | char {t : Token} {w : List Token} {es : List Element} :
      t.kind ≠ .zeroOrMore → t.kind ≠ .wildcard → t.kind ≠ .classBegin → Written w es →
        Written (t :: w) (.char t.char :: es)

/-- The tree of an element. -/
def Element.tree : Element → Tree
  | star => Tree.repeatOf Tree.any 0 none
  | one => Tree.any
  | set l => .characters l.ranges
  | char c => Tree.char c

/-! ## Reading -/

variable {ts : Tokens} {w : List Token} {es : List Element}

theorem elements_written {us : List Tree} (h : elements ts = .ok us) :
    ∃ w es, ts.word? = some w ∧ Written w es ∧ us = es.map Element.tree := by
  fun_induction elements ts generalizing us with
  | case1 =>
      obtain rfl := by simpa using h
      exact ⟨[], [], rfl, .nil, rfl⟩
  | case2 => exact absurd h (by simp)
  | case3 => exact absurd h (by simp)
  | case4 c p ts r hshorter hread ih =>
      rcases SyntaxError.map_eq_ok_iff.1 h with ⟨us, hus, rfl⟩
      rcases ih hus with ⟨w, es, hw, hes, rfl⟩
      rcases CharacterClass.read_written (congrArg Subtype.val hread) with ⟨u, l, hreads, hl, hranges⟩
      refine ⟨⟨.classBegin, c⟩ :: (u ++ w), _, ?_, .set rfl hl hes, ?_⟩
      · rw [word?, hreads.word?_eq, hw]
        rfl
      · rw [hranges]
        rfl
  | case5 c p ts ih =>
      rcases SyntaxError.map_eq_ok_iff.1 h with ⟨us, hus, rfl⟩
      rcases ih hus with ⟨w, es, hw, hes, rfl⟩
      exact ⟨_, _, by rw [word?, hw]; rfl, .one rfl hes, rfl⟩
  | case6 c p ts ih =>
      rcases SyntaxError.map_eq_ok_iff.1 h with ⟨us, hus, rfl⟩
      rcases ih hus with ⟨w, es, hw, hes, rfl⟩
      exact ⟨_, _, by rw [word?, hw]; rfl, .star rfl hes, rfl⟩
  | case7 k c p ts hclass hone hstar ih =>
      rcases SyntaxError.map_eq_ok_iff.1 h with ⟨us, hus, rfl⟩
      rcases ih hus with ⟨w, es, hw, hes, rfl⟩
      exact ⟨_, _, by rw [word?, hw]; rfl, .char hstar hone hclass hes, rfl⟩

theorem elements_char {k : Token.Kind} {c : Char} {p : Nat} (hstar : k ≠ .zeroOrMore)
    (hone : k ≠ .wildcard) (hclass : k ≠ .classBegin) :
    elements (token k c p ts) = (elements ts).map (Tree.char c :: ·) := by
  rw [elements] <;> assumption

theorem Written.elements_eq_ok (hes : Written w es) (hw : ts.word? = some w) :
    elements ts = .ok (es.map Element.tree) := by
  rcases word?_eq_some_iff.1 hw with ⟨p, hreads⟩
  clear hw
  induction hes generalizing ts with
  | nil =>
      rw [← reads_nil_iff.1 hreads, elements]
      rfl
  | star ht _ ih | one ht _ ih =>
      rcases reads_cons_iff.1 hreads with ⟨p, ts', rfl, hrest⟩
      rw [ht, elements, ih hrest]
      rfl
  | set ht hl _ ih =>
      rcases reads_cons_iff.1 hreads with ⟨p, ts', rfl, hbehind⟩
      rcases reads_append_iff.1 hbehind with ⟨mid, hclass, hrest⟩
      rcases hl.read_eq_ok hclass with ⟨p', hok⟩
      rw [ht, elements_class, hok]
      exact SyntaxError.map_eq_ok_iff.2 ⟨_, ih hrest, rfl⟩
  | char hstar hone hclass _ ih =>
      rcases reads_cons_iff.1 hreads with ⟨p, ts', rfl, hrest⟩
      rw [elements_char hstar hone hclass, ih hrest]
      rfl

/-- The reader accepts what is written like a glob. -/
theorem parse_eq_ok_iff {t : Tree} :
    parse ts = .ok t ↔
      ∃ w es, ts.word? = some w ∧ Written w es ∧ Tree.seqOf (es.map Element.tree) = t := by
  rw [parse, SyntaxError.map_eq_ok_iff]
  constructor
  · rintro ⟨us, hus, rfl⟩
    rcases elements_written hus with ⟨w, es, hw, hes, rfl⟩
    exact ⟨w, es, hw, hes, rfl⟩
  · rintro ⟨w, es, hw, hes, rfl⟩
    exact ⟨_, hes.elements_eq_ok hw, rfl⟩

/-- A word has one list of elements at most. -/
theorem Written.unique {es' : List Element} (h : Written w es) (h' : Written w es') : es = es' := by
  induction h generalizing es' with
  | nil =>
      cases h'
      rfl
  | star ht _ ih =>
      cases h' with
      | star _ hrest => rw [ih hrest]
      | one ht' | set ht' => exact absurd (ht.symm.trans ht') (by simp)
      | char hstar => exact absurd ht hstar
  | one ht _ ih =>
      cases h' with
      | one _ hrest => rw [ih hrest]
      | star ht' | set ht' => exact absurd (ht.symm.trans ht') (by simp)
      | char _ hone => exact absurd ht hone
  | @set t u v l es ht hl _ ih =>
      -- The class ends at one place only, so the elements behind it are those of the same word.
      generalize hw : t :: (u ++ v) = w at h'
      cases h' with
      | nil => exact absurd hw (by simp)
      | star ht' | one ht' =>
          obtain ⟨rfl, -⟩ := List.cons.inj hw
          exact absurd (ht.symm.trans ht') (by simp)
      | set _ hl' hrest =>
          obtain ⟨rfl, htail⟩ := List.cons.inj hw
          obtain ⟨rfl, rfl⟩ := hl.unique hl' htail
          obtain rfl := List.append_cancel_left htail
          rw [ih hrest]
      | char _ _ hclass =>
          obtain ⟨rfl, -⟩ := List.cons.inj hw
          exact absurd ht hclass
  | char hstar hone hclass _ ih =>
      cases h' with
      | star ht' => exact absurd ht' hstar
      | one ht' => exact absurd ht' hone
      | set ht' => exact absurd ht' hclass
      | char _ _ _ hrest => rw [ih hrest]

/-! ## Errors -/

/-- What may be wrong with a glob. -/
def ErrorKind (k : SyntaxError.Kind) : Prop :=
  k = .unrecognizedCharacter ∨ k = .unfinishedClass ∨ k = .invalidRange

theorem errorKind_items {e : SyntaxError} (h : CharacterClass.items ts = .error e) : ErrorKind e.kind := by
  fun_induction CharacterClass.items ts with
  | case3 => exact absurd h (by simp)
  | case5 _ _ _ _ _ _ _ _ _ _ _ ih => exact ih (SyntaxError.map_eq_error_iff.1 h)
  | case8 _ _ _ _ _ _ _ _ ih => exact ih (SyntaxError.map_eq_error_iff.1 h)
  | case1 | case2 | case4 | case6 | case7 =>
      obtain rfl := by simpa using h
      simp [ErrorKind]

theorem errorKind_class {e : SyntaxError} (h : CharacterClass.read ts = .error e) : ErrorKind e.kind := by
  rw [CharacterClass.read_eq, SyntaxError.map_eq_error_iff] at h
  exact errorKind_items h

theorem errorKind_parse {e : SyntaxError} (h : parse ts = .error e) : ErrorKind e.kind := by
  rw [parse, SyntaxError.map_eq_error_iff] at h
  fun_induction elements ts with
  | case1 => exact absurd h (by simp)
  | case2 =>
      obtain rfl := by simpa using h
      exact Or.inl rfl
  | case3 c p ts e' hshorter hread =>
      obtain rfl := by simpa using h
      exact errorKind_class (congrArg Subtype.val hread)
  | case4 _ _ _ _ _ _ ih | case5 _ _ _ ih | case6 _ _ _ ih | case7 _ _ _ _ _ _ _ ih =>
      exact ih (SyntaxError.map_eq_error_iff.1 h)

/-! ## The words of the tree -/

theorem spells_characters_iff {rs : List Range} {u : List Char} :
    (Tree.characters rs).Spells (u.map ofChar) ↔ ∃ c, u = [c] ∧ Range.Union rs (ofChar c) := by
  rw [Tree.spells_characters_iff]
  constructor
  · rintro ⟨r, hr, p, hp, hu⟩
    rcases List.map_eq_singleton_iff.1 hu with ⟨c, rfl, rfl⟩
    exact ⟨c, rfl, r, hr, hp⟩
  · rintro ⟨c, rfl, r, hr, hp⟩
    exact ⟨r, hr, ofChar c, hp, rfl⟩

theorem spells_any_iff {u : List Char} :
    Tree.any.Spells (u.map ofChar) ↔ ∃ c, u = [c] ∧ CharInAlphabet c := by
  have hany : ∀ c, Range.Union [Range.any] (ofChar c) ↔ CharInAlphabet c := by
    intro c
    simp [Range.Union, Range.any, Range.Covers, CharInAlphabet, ofChar_nonneg]
  simp only [Tree.any, spells_characters_iff, hany]

/-- A star stands for all texts over the alphabet. -/
theorem spells_star_iff {u : List Char} :
    (Tree.repetition Tree.any 0 none).Spells (u.map ofChar) ↔ ∀ c ∈ u, CharInAlphabet c := by
  constructor
  · intro h c hc
    have hsound : (Tree.repetition Tree.any 0 none).Sound := .repetition ⟨trivial, trivial⟩ Tree.sound_any
    exact (hsound.bounds_of_spells h (ofChar c) (List.mem_map_of_mem hc)).2
  · intro hu
    -- One round for each character.
    have hone : ∀ w ∈ u.map fun c => [ofChar c], Tree.any.Spells w := by
      intro w hw
      rcases List.mem_map.1 hw with ⟨c, hc, rfl⟩
      exact spells_any_iff.2 ⟨c, rfl, hu c hc⟩
    have hpieces : (u.map fun c => [ofChar c]).flatten = u.map ofChar := by
      rw [← List.flatMap_def, List.map_eq_flatMap]
    rw [← hpieces]
    exact .repetition (Nat.zero_le _) (by simp) hone

/-- The items of a set are made of characters of the alphabet. -/
def Element.InAlphabet : Element → Prop
  | set l => ∀ i ∈ l.items, i.toRange.InAlphabet
  | _ => True

theorem Element.spells_iff {e : Element} (he : e.InAlphabet) {u : List Char} :
    e.tree.Spells (u.map ofChar) ↔ e.Matches u := by
  cases e with
  | star =>
      rw [tree, Tree.repeatOf, if_neg (by simp), spells_star_iff]
      constructor
      · exact .star
      · rintro ⟨hu⟩
        assumption
  | one =>
      rw [tree, spells_any_iff]
      constructor
      · rintro ⟨c, rfl, hc⟩
        exact .one hc
      · rintro ⟨⟩
        exact ⟨_, rfl, by assumption⟩
  | set l =>
      rw [tree, spells_characters_iff]
      simp only [CharacterClass.Listing.covers_ranges_iff he]
      constructor
      · rintro ⟨c, rfl, hc⟩
        exact .set hc
      · rintro ⟨⟩
        exact ⟨_, rfl, by assumption⟩
  | char c =>
      have hchar : ∀ x, Range.Union [Range.ofChar c] (ofChar x) ↔ x = c := by
        intro x
        simp only [Range.Union, List.mem_singleton, exists_eq_left, Range.ofChar, Range.covers_point_iff]
        exact ⟨fun h => ofChar_injective h, congrArg ofChar⟩
      rw [tree, Tree.char, spells_characters_iff]
      simp only [hchar]
      constructor
      · rintro ⟨x, rfl, rfl⟩
        exact .char
      · rintro ⟨⟩
        exact ⟨_, rfl, rfl⟩

theorem matches_nil_iff {text : List Char} : Matches [] text ↔ text = [] := by
  simp [Matches, eq_comm]

theorem matches_cons_iff {e : Element} {text : List Char} :
    Matches (e :: es) text ↔ ∃ u v, text = u ++ v ∧ e.Matches u ∧ Matches es v := by
  constructor
  · rintro ⟨_, rfl, _ | ⟨hu, hrest⟩⟩
    exact ⟨_, _, rfl, hu, _, rfl, hrest⟩
  · rintro ⟨u, _, rfl, hu, pieces, rfl, hrest⟩
    exact ⟨u :: pieces, rfl, .cons hu hrest⟩

/-- The words of a glob are the texts that it matches. -/
theorem spells_iff (hes : ∀ e ∈ es, e.InAlphabet) {text : List Char} :
    (Tree.seqOf (es.map Element.tree)).Spells (text.map ofChar) ↔ Matches es text := by
  rw [Tree.spells_seqOf_iff]
  induction es generalizing text with
  | nil =>
      rw [List.map_nil, Tree.spells_sequence_nil_iff, matches_nil_iff, List.map_eq_nil_iff]
  | cons e es ih =>
      rcases List.forall_mem_cons.1 hes with ⟨he, hes⟩
      rw [List.map_cons, Tree.spells_sequence_cons_iff, matches_cons_iff]
      constructor
      · rintro ⟨u, v, htext, hu, hv⟩
        rcases List.map_eq_append_iff.1 htext with ⟨u, v, rfl, rfl, rfl⟩
        exact ⟨u, v, rfl, (Element.spells_iff he).1 hu, (ih hes).1 hv⟩
      · rintro ⟨u, v, rfl, hu, hv⟩
        exact ⟨_, _, List.map_append, (Element.spells_iff he).2 hu, (ih hes).2 hv⟩

/-- The elements of a word over the alphabet lie in the alphabet. -/
theorem Written.inAlphabet (h : Written w es) (hw : ∀ t ∈ w, CharInAlphabet t.char) :
    ∀ e ∈ es, e.InAlphabet := by
  induction h with
  | nil => simp
  | star _ _ ih | one _ _ ih | char _ _ _ _ ih =>
      simp only [List.forall_mem_cons] at hw ⊢
      exact ⟨trivial, ih hw.2⟩
  | set _ hl _ ih =>
      simp only [List.forall_mem_cons, List.forall_mem_append] at hw ⊢
      exact ⟨hl.inAlphabet hw.2.1, ih hw.2.2⟩

end Glob

/-- The characters of tokens over the alphabet. -/
theorem Tokens.InAlphabet.word {ts : Tokens} (h : ts.InAlphabet) {w : List Token}
    (hw : ts.word? = some w) : ∀ t ∈ w, CodePoint.CharInAlphabet t.char := by
  induction ts generalizing w with
  | token k c p ts ih =>
      rcases Option.map_eq_some_iff.1 hw with ⟨w, hrest, rfl⟩
      exact List.forall_mem_cons.2 ⟨h.1, ih h.2 hrest⟩
  | ended =>
      obtain rfl := Option.some.inj hw
      simp
  | failed =>
      exact absurd hw (by simp [word?])

/-- A glob fails for one of three reasons only. Otherwise its tokens are written like one list of elements, and
the automaton of this glob has its value for the texts that these elements match. This is the automaton to which
the glob is added if there is room for it. -/
theorem Dialect.glob_correct {V : Type} [DecidableEq V] (pattern : String) (value : V) :
    match Dialect.glob.parse pattern with
    | .error e => e.kind = .unrecognizedCharacter ∨ e.kind = .unfinishedClass ∨ e.kind = .invalidRange
    | .ok t => ∃ w es m, (Dialect.glob.tokens pattern).word? = some w ∧
        (∀ es', Glob.Written w es' ↔ es' = es) ∧
        ((Compiler.new .glob).insert t value).compile = .ok m ∧
        (∀ text u, m.automaton.output? (text.map CodePoint.ofChar) = some u ↔
          u = value ∧ Glob.Matches es text) ∧
        (Compiler.new .glob).add pattern value =
          if (Compiler.new .glob : Compiler V).fits t then ((Compiler.new .glob).insert t value, none)
          else (Compiler.new .glob, some (.tooLarge Compiler.maxStates)) := by
  cases hparse : Dialect.glob.parse pattern with
  | error e => exact Glob.errorKind_parse hparse
  | ok t =>
      rcases Glob.parse_eq_ok_iff.1 hparse with ⟨w, es, hw, hes, rfl⟩
      rcases Compiler.compile_single hparse value with ⟨m, hm, hout⟩
      -- The alphabet matters for the sets only, which are complemented in it.
      have hsound := hes.inAlphabet ((Dialect.glob.inAlphabet_tokens pattern).word hw)
      refine ⟨w, es, m, hw, fun es' => ⟨fun h => h.unique hes, ?_⟩, hm, fun text u => ?_, ?_⟩
      · rintro rfl
        exact hes
      · rw [hout, Glob.spells_iff hsound]
      · have hdialect : (Compiler.new .glob : Compiler V).dialect = .glob := rfl
        rw [Compiler.add, hdialect, hparse]

end MaximalMunch
