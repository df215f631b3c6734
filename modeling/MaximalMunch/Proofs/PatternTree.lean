import MaximalMunch.Pattern.Parser
import MaximalMunch.Proofs.TokenReading

/-!
# The trees of patterns are sound

Whatever the tokens are, the bounds of a repetition that is read are in order; and if the tokens denote
characters of the alphabet, so do all ranges of the tree.

- `Bounds.read_inOrder`         : a specifier that is accepted has its bounds in order
- `CharacterClass.read_sound`   : the ranges of a class
- `Regex.step_sound`            : one token keeps all levels sound, and `Regex.parse_sound`
- `Glob.parse_sound`            : the same for globs
- `Dialect.parse_sound`         : the tree of any pattern text
-/

namespace MaximalMunch

open CodePoint

/-! ## Trees that leave out a level -/

namespace Tree

theorem sound_characters {rs : List Range} (h : ∀ r ∈ rs, r.InAlphabet) : (characters rs).Sound :=
  .characters ⟨h, trivial⟩

theorem sound_char {c : Char} (h : CharInAlphabet c) : (char c).Sound :=
  sound_characters (by simpa using h.range)

theorem sound_any : any.Sound := sound_characters (by simpa using Range.inAlphabet_any)

theorem sound_seqOf {ts : List Tree} (h : ∀ t ∈ ts, t.Sound) : (seqOf ts).Sound := by
  unfold seqOf
  split
  · exact h _ (by simp)
  · exact .sequence ⟨trivial, trivial⟩ h

theorem sound_choiceOf {ts : List Tree} (h : ∀ t ∈ ts, t.Sound) : (choiceOf ts).Sound := by
  unfold choiceOf
  split
  · exact h _ (by simp)
  · exact .choice ⟨trivial, trivial⟩ h

theorem sound_repeatOf {t : Tree} (h : t.Sound) {min : Nat} {max : Option Nat}
    (hle : ∀ m, max = some m → min ≤ m) : (repeatOf t min max).Sound := by
  unfold repeatOf
  split
  · exact h
  · refine .repetition ⟨trivial, ?_⟩ h
    cases max with
    | none => exact trivial
    | some m => exact hle m rfl

end Tree

/-! ## Bounds of a repetition -/

namespace Bounds

open Tokens

theorem inAlphabet_number {n m : Option Nat} {ts rest : Tokens} (hts : ts.InAlphabet)
    (h : number n ts = .ok (m, rest)) : rest.InAlphabet := by
  fun_induction number n ts with
  | case1 n c p rest' m' hm ih =>
      exact ih hts.2 h
  | case2 =>
      exact absurd h (by simp)
  | case3 =>
      obtain ⟨-, rfl⟩ := by simpa using h
      exact hts

/-- What the reader of a closing brace answers. -/
theorem close_spec {min : Nat} {max : Option Nat} {ts : Tokens} {b : Bounds}
    (hts : ts.InAlphabet) (h : close min max ts = .ok b) :
    b.min = min ∧ b.max = max ∧ b.rest.InAlphabet := by
  unfold close at h
  split at h
  · obtain rfl := by simpa using h
    exact ⟨rfl, rfl, hts.2⟩
  · exact absurd h (by simp)
  · exact absurd h (by simp)

theorem closeOrdered_spec {min : Nat} {max : Option Nat} {ts : Tokens} {b : Bounds}
    (hts : ts.InAlphabet) (h : closeOrdered min max ts = .ok b) :
    (∀ m, b.max = some m → b.min ≤ m) ∧ b.rest.InAlphabet := by
  unfold closeOrdered at h
  split at h
  · exact absurd h (by simp)
  · split at h
    · exact absurd h (by simp)
    · rename_i hle
      rcases close_spec hts h with ⟨hmin, hmax, hrest⟩
      refine ⟨fun m hm => ?_, hrest⟩
      rw [hmax] at hm
      rw [hmin]
      simpa [hm] using hle

/-- Bounds that are read are in order. -/
theorem read_inOrder {ts : Tokens} {b : Bounds} (hts : ts.InAlphabet) (h : read ts = .ok b) :
    (∀ m, b.max = some m → b.min ≤ m) ∧ b.rest.InAlphabet := by
  unfold read at h
  split at h
  · exact absurd h (by simp)
  · rename_i hmin
    have hcomma := (inAlphabet_number hts hmin).2
    split at h
    · exact absurd h (by simp)
    · rename_i hmax
      exact closeOrdered_spec (inAlphabet_number hcomma hmax) h
  · rename_i hmin
    rcases close_spec (inAlphabet_number hts hmin) h with ⟨hb, hmax, hrest⟩
    refine ⟨fun m hm => ?_, hrest⟩
    -- One number stands for both bounds.
    rw [hmax] at hm
    obtain rfl := Option.some.inj hm
    exact Nat.le_of_eq hb

end Bounds

/-! ## Character classes -/

namespace CharacterClass

open Tokens

/-- The ranges of a class, and the tokens behind it. -/
def Sound (c : CharacterClass) : Prop := (∀ r ∈ c.ranges, r.InAlphabet) ∧ c.rest.InAlphabet

theorem sound_map_cons {r : Range} {x : Except SyntaxError CharacterClass} {c : CharacterClass}
    (hr : r.InAlphabet) (hx : ∀ d, x = .ok d → d.Sound) (h : x.map (cons r) = .ok c) : c.Sound := by
  rcases SyntaxError.map_eq_ok_iff.1 h with ⟨d, hd, rfl⟩
  rcases hx d hd with ⟨hranges, hrest⟩
  refine ⟨fun q hq => ?_, hrest⟩
  rcases List.mem_cons.1 hq with rfl | hq
  · exact hr
  · exact hranges q hq

theorem sound_items {ts : Tokens} {c : CharacterClass} (hts : ts.InAlphabet)
    (h : items ts = .ok c) : c.Sound := by
  fun_induction items ts generalizing c with
  | case1 | case2 | case4 | case6 | case7 => exact absurd h (by simp)
  | case3 c p rest =>
      obtain rfl := by simpa using h
      exact ⟨by simp, hts.2⟩
  | case5 kind x p sign p' kind' y p'' rest hkind hlt ih =>
      rcases hts with ⟨-, -, hy, hrest⟩
      have hrange : Range.InAlphabet ⟨ofChar x, ofChar y⟩ :=
        ⟨ofChar_nonneg x, ofChar_le_iff.2 (Char.not_lt.1 hlt), hy⟩
      exact sound_map_cons hrange (fun d hd => ih hrest hd) h
  | case8 kind x p rest hkind hrange hended hfailed ih =>
      exact sound_map_cons hts.1.range (fun d hd => ih hts.2 hd) h

theorem inAlphabet_negation {ts : Tokens} (hts : ts.InAlphabet) : (negation ts).2.InAlphabet := by
  unfold negation
  split
  · exact hts.2
  · exact hts

theorem sound_leadingBracket {ts : Tokens} (hts : ts.InAlphabet) :
    (∀ r ∈ (leadingBracket ts).1, r.InAlphabet) ∧ (leadingBracket ts).2.InAlphabet := by
  unfold leadingBracket
  split
  · exact ⟨by simpa using hts.1.range, hts.2⟩
  · exact ⟨by simp, hts⟩

/-- The ranges of a class lie in the alphabet, negated or not. -/
theorem read_sound {ts : Tokens} {c : CharacterClass} (hts : ts.InAlphabet)
    (h : read ts = .ok c) : c.Sound := by
  rcases sound_leadingBracket (inAlphabet_negation hts) with ⟨hfirst, hrest⟩
  simp only [read] at h
  split at h
  · exact absurd h (by simp)
  · rename_i d hd
    rcases sound_items hrest hd with ⟨hitems, hbehind⟩
    have hall : ∀ r ∈ (leadingBracket (negation ts).2).1 ++ d.ranges, r.InAlphabet := by
      intro r hr
      rcases List.mem_append.1 hr with hr | hr
      · exact hfirst r hr
      · exact hitems r hr
    obtain rfl := by simpa using h
    refine ⟨?_, hbehind⟩
    simp only
    split
    · exact Range.inAlphabet_complement hall
    · exact hall

end CharacterClass

/-! ## Regular expressions -/

namespace Regex

open Tokens

/-- The trees that have been read of a level. -/
structure Level.Sound (l : Level) : Prop where
  branches : ∀ t ∈ l.branches, t.Sound
  terms : ∀ t ∈ l.terms, t.Sound

theorem Level.Sound.push {l : Level} (h : l.Sound) {t : Tree} (ht : t.Sound) : (l.push t).Sound where
  branches := h.branches
  terms := by
    intro u hu
    rcases List.mem_cons.1 hu with rfl | hu
    · exact ht
    · exact h.terms u hu

theorem Level.Sound.nextBranch {l : Level} (h : l.Sound) : l.nextBranch.Sound where
  branches := by
    intro t ht
    rcases List.mem_cons.1 ht with rfl | ht
    · exact Tree.sound_seqOf fun u hu => h.terms u (List.mem_reverse.1 hu)
    · exact h.branches t ht
  terms := by simp [Level.nextBranch]

theorem Level.Sound.tree {l : Level} (h : l.Sound) : l.tree.Sound :=
  Tree.sound_choiceOf fun t ht => h.nextBranch.branches t (List.mem_reverse.1 ht)

theorem Level.sound_empty : ({} : Level).Sound := ⟨by simp, by simp⟩

/-- All open levels hold sound trees. -/
structure State.Sound (s : State) : Prop where
  level : s.level.Sound
  outer : ∀ l ∈ s.outer, l.Sound

theorem quantified_sound {t t' : Tree} {ts rest : Tokens} (ht : t.Sound) (hts : ts.InAlphabet)
    (h : quantified t ts = .ok (t', rest)) : t'.Sound ∧ rest.InAlphabet := by
  unfold quantified at h
  split at h
  case h_4 =>
    split at h
    · exact absurd h (by simp)
    · rename_i b hb
      rcases Bounds.read_inOrder hts.2 hb with ⟨hle, hrest⟩
      obtain ⟨rfl, rfl⟩ := by simpa using h
      exact ⟨Tree.sound_repeatOf ht hle, hrest⟩
  case h_5 =>
    obtain ⟨rfl, rfl⟩ := by simpa using h
    exact ⟨ht, hts⟩
  all_goals
    obtain ⟨rfl, rfl⟩ := by simpa using h
    exact ⟨Tree.sound_repeatOf ht (by simp), hts.2⟩

theorem State.Sound.add {s s' : State} {t : Tree} {ts rest : Tokens} (hs : s.Sound) (ht : t.Sound)
    (hts : ts.InAlphabet) (h : s.add t ts = .ok (s', rest)) : s'.Sound ∧ rest.InAlphabet := by
  unfold State.add at h
  split at h
  · exact absurd h (by simp)
  · rename_i u more hq
    rcases quantified_sound ht hts hq with ⟨hu, hmore⟩
    obtain ⟨rfl, rfl⟩ := by simpa using h
    exact ⟨⟨hs.level.push hu, hs.outer⟩, hmore⟩

/-- One token keeps all levels sound. -/
theorem step_sound {s s' : State} {kind : Token.Kind} {c : Char} {p : Nat} {ts rest : Tokens}
    (hs : s.Sound) (hc : CharInAlphabet c) (hts : ts.InAlphabet)
    (h : step s kind c p ts = .ok (s', rest)) : s'.Sound ∧ rest.InAlphabet := by
  unfold step at h
  split at h
  · obtain ⟨rfl, rfl⟩ := by simpa using h
    exact ⟨⟨hs.level.nextBranch, hs.outer⟩, hts⟩
  · split at h
    · exact absurd h (by simp)
    · obtain ⟨rfl, rfl⟩ := by simpa using h
      refine ⟨⟨Level.sound_empty, fun l hl => ?_⟩, hts⟩
      rcases List.mem_cons.1 hl with rfl | hl
      · exact hs.level
      · exact hs.outer l hl
  · split at h
    · exact hs.add (Tree.sound_char hc) hts h
    · -- The group that ends is a term of the level around it.
      rename_i level outer houter
      have hall : ∀ l ∈ level :: outer, l.Sound := by
        rw [← houter]
        exact hs.outer
      have haround : State.Sound { level, outer } :=
        ⟨hall level (by simp), fun l hl => hall l (List.mem_cons_of_mem _ hl)⟩
      exact haround.add hs.level.tree hts h
  · split at h
    · exact absurd h (by simp)
    · rename_i d hd
      rcases CharacterClass.read_sound hts hd with ⟨hranges, hrest⟩
      exact hs.add (Tree.sound_characters hranges) hrest h
  · exact hs.add Tree.sound_any hts h
  · exact hs.add (Tree.sound_char hc) hts h

theorem read_sound {s : State} {ts : Tokens} {t : Tree} (hs : s.Sound) (hts : ts.InAlphabet)
    (h : read s ts = .ok t) : t.Sound := by
  fun_induction read s ts with
  | case1 | case3 | case4 => exact absurd h (by simp)
  | case2 s p hopen =>
      obtain rfl := by simpa using h
      exact hs.level.tree
  | case5 s kind c p ts s' rest hshorter hstep ih =>
      have hok : step s kind c p ts = .ok (s', rest) := congrArg Subtype.val hstep
      rcases step_sound hs hts.1 hts.2 hok with ⟨hs', hrest⟩
      exact ih hs' hrest h

theorem parse_sound {ts : Tokens} {t : Tree} (hts : ts.InAlphabet) (h : parse ts = .ok t) :
    t.Sound :=
  read_sound ⟨Level.sound_empty, by simp⟩ hts h

end Regex

/-! ## Globs -/

namespace Glob

open Tokens

theorem sound_map_cons {t : Tree} {x : Except SyntaxError (List Tree)} {ts : List Tree} (ht : t.Sound)
    (hx : ∀ us, x = .ok us → ∀ u ∈ us, u.Sound) (h : x.map (t :: ·) = .ok ts) : ∀ u ∈ ts, u.Sound := by
  rcases SyntaxError.map_eq_ok_iff.1 h with ⟨us, hus, rfl⟩
  exact List.forall_mem_cons.2 ⟨ht, hx us hus⟩

theorem elements_sound {ts : Tokens} {us : List Tree} (hts : ts.InAlphabet)
    (h : elements ts = .ok us) : ∀ u ∈ us, u.Sound := by
  fun_induction elements ts generalizing us with
  | case1 =>
      obtain rfl := by simpa using h
      simp
  | case2 | case3 => exact absurd h (by simp)
  | case4 c p ts d hshorter hread ih =>
      have hok : CharacterClass.read ts = .ok d := congrArg Subtype.val hread
      rcases CharacterClass.read_sound hts.2 hok with ⟨hranges, hrest⟩
      exact sound_map_cons (Tree.sound_characters hranges) (fun us hus => ih hrest hus) h
  | case5 c p ts ih =>
      exact sound_map_cons Tree.sound_any (fun us hus => ih hts.2 hus) h
  | case6 c p ts ih =>
      have hstar : (Tree.repeatOf Tree.any 0 none).Sound :=
        Tree.sound_repeatOf Tree.sound_any (by simp)
      exact sound_map_cons hstar (fun us hus => ih hts.2 hus) h
  | case7 kind c p ts hclass hwildcard hstar ih =>
      exact sound_map_cons (Tree.sound_char hts.1) (fun us hus => ih hts.2 hus) h

theorem parse_sound {ts : Tokens} {t : Tree} (hts : ts.InAlphabet) (h : parse ts = .ok t) :
    t.Sound := by
  rcases SyntaxError.map_eq_ok_iff.1 h with ⟨us, hus, rfl⟩
  exact Tree.sound_seqOf (elements_sound hts hus)

end Glob

/-- The tree of any pattern text is sound. -/
theorem Dialect.parse_sound {d : Dialect} {pattern : String} {t : Tree}
    (h : d.parse pattern = .ok t) : t.Sound := by
  have hts := d.inAlphabet_tokens pattern
  cases d with
  | regex => exact Regex.parse_sound hts h
  | glob => exact Glob.parse_sound hts h

/-! ## Two small globs -/

theorem Dialect.parse_wildcard : Dialect.glob.parse "?" = .ok Tree.any := by
  have htokens : Dialect.glob.tokens "?" = .token .wildcard '?' 1 (.ended 2) :=
    (tokens_eq_reading _ _).trans (by decide)
  simp [parse, treeOf, htokens, Glob.parse, Glob.elements, Except.map, Tree.seqOf]

theorem Dialect.parse_letter : Dialect.glob.parse "b" = .ok (Tree.char 'b') := by
  have htokens : Dialect.glob.tokens "b" = .token .literal 'b' 1 (.ended 2) :=
    (tokens_eq_reading _ _).trans (by decide)
  simp [parse, treeOf, htokens, Glob.parse, Glob.elements, Except.map, Tree.seqOf]

end MaximalMunch
