import MaximalMunch.Proofs.DescentReading
import MaximalMunch.Proofs.OpenGroups

/-!
# Recursive descent through groups

The functions that read a regular expression go from place to place. At the beginning of each turn their counter is
the number of open groups, and it is that number as well where they fail. What they read are the derivations of the
grammar.

- `Descent.Turn.Counts`     : what is recorded of a turn is true
- `Descent.Broken`          : a failure at a place, with the open groups there on the counter
- `Descent.group_ends`, `atom_ends`, `sequence_ends`, `alternative_ends` : by induction on the fuel
- `Descent.parse_regex`     : a whole regular expression
-/

namespace MaximalMunch

namespace Descent

open Token Tokens Regex

/-- As many groups are open at the place as the counter says, not too many, and one choice is being read for each
of them and one for the pattern. -/
structure Turn.Counts (ts : Tokens) (m : Turn) : Prop where
  depth_le : m.depth ≤ maxDepth
  calls_eq : m.calls = m.depth + 1
  opens : Opens m.depth ts m.place

/-- What is known of a state with `d` open groups, while the tokens `ts` of a pattern are read. -/
def inside (ts : Tokens) (d : Nat) : Frame where
  dialect := .regex
  length := ts.length
  depth := d
  Good := Turn.Counts ts

/-- The failure is that of a place, and the counter says how many groups are open there. -/
def Broken (ts : Tokens) (e : SyntaxError) (s : Cursor) : Prop :=
  ∃ d rest, d ≤ maxDepth ∧ Opens d ts rest ∧ Regex.Breaks d rest e ∧ (inside ts d).Stopped s

/-- A token that ends a choice. -/
def Ended (d : Nat) (k : Option Kind) : Prop := (k = none ∧ d = 0) ∨ (k = some .groupEnd ∧ 0 < d)

variable {ts₀ ts rest : Tokens} {d : Nat} {s : Cursor} {t : Item}

theorem Broken.failed {p : Nat} (hd : d ≤ maxDepth) (h : Opens d ts₀ (.failed p)) (hs : (inside ts₀ d).Stopped s) :
    Broken ts₀ ⟨.unrecognizedCharacter, p⟩ s :=
  ⟨d, _, hd, h, .failed, hs⟩

theorem closes_iff {k : Option Kind} : Closes (d = 0) k ↔ k = some .alternative ∨ Ended d k := by
  simp [Closes, Ended, Nat.pos_iff_ne_zero]

/-- With that much fuel, the choices inside of any number of groups are read with the token that ends them. -/
def ReadsChoices (ts₀ : Tokens) (fuel : Nat) : Prop :=
  ∀ {ts : Tokens} {d : Nat} {s : Cursor} {t : Item} (branches : List Tree), ts.length < fuel → d ≤ maxDepth →
    Opens d ts₀ ts → (inside ts₀ d).Holds t s ts →
      Ends (alternative fuel (d + 1) (d = 0) branches t) s (Broken ts₀) fun r s' =>
        ∃ w c rest, Reads ts w rest ∧ c.Derives d w ∧ r.1 = Tree.choiceOf (branches ++ Choice.branches c) ∧
          Ended d rest.kind? ∧ (inside ts₀ d).Holds r.2 s' rest

/-- The same state on the next level. -/
theorem before_enter {s' : Cursor} (h : (inside ts₀ d).Before s ts) (hs : s' = { s with depth := s.depth + 1 }) :
    (inside ts₀ (d + 1)).Before s' ts := by
  subst hs
  exact ⟨⟨congrArg (· + 1) h.depth, h.turns⟩, h.ready, h.chain, h.reads⟩

theorem before_leave (h : (inside ts₀ (d + 1)).Before s ts) :
    (inside ts₀ d).Before { s with depth := s.depth - 1 } ts :=
  ⟨⟨by rw [h.depth]; rfl, h.turns⟩, h.ready, h.chain, h.reads⟩

/-- What a program that reads an atom from `ts` on does, inside of `d` groups. The last token of the atom is in hand,
and what follows is still to be read. -/
def ReadsAtom (ts₀ ts : Tokens) (d : Nat) (x : Parser Tree) (s : Cursor) : Prop :=
  Ends x s (Broken ts₀) fun tree s' =>
    ∃ w a rest, Reads ts w rest ∧ a.Derives d w ∧ tree = Atom.tree a ∧ (inside ts₀ d).Before s' rest

/-- A group is read up to its closing parenthesis. -/
theorem group_ends {fuel : Nat} {c : Char} {p : Nat} (hinside : ReadsChoices ts₀ fuel) (hfuel : ts.length < fuel)
    (hd : d ≤ maxDepth) (hopens : Opens d ts₀ (token .groupBegin c p ts))
    (h : (inside ts₀ d).Holds ⟨some .groupBegin, some c⟩ s (token .groupBegin c p ts)) :
    ReadsAtom ts₀ (token .groupBegin c p ts) d (atom (fuel + 1) (d + 1) ⟨some .groupBegin, some c⟩) s := by
  rw [atom]
  refine .get_bind ?_
  by_cases hmax : s.depth = maxDepth
  · rw [if_pos hmax]
    exact h.fail ⟨d, _, hd, hopens, .tooDeep (h.depth.symm.trans hmax), h.stopped⟩
  · rw [if_neg hmax]
    rw [h.depth] at hmax
    have hlt : d < maxDepth := Nat.lt_of_le_of_ne hd hmax
    -- Behind the parenthesis one group more is open, and the counter goes up before the next read.
    have hgroup : Opens (d + 1) ts₀ ts := .group hopens .nil
    refine .modify_bind ((before_enter h.before rfl).next_bind ?_ fun t s h => ?_)
    · rintro p s rfl hstopped
      exact .failed hlt hgroup hstopped
    · refine (hinside [] hfuel hlt hgroup h).seq (fun _ _ h => h) ?_
      rintro ⟨tree, t⟩ s ⟨w, b, rest', hw, hb, rfl, hended, h⟩
      rcases hended with ⟨-, hzero⟩ | ⟨hend, -⟩
      · exact absurd hzero (Nat.succ_ne_zero d)
      · -- The counter goes down with the closing parenthesis still in hand.
        rcases kind?_eq_some_iff.1 hend with ⟨c', p', rest, rfl⟩
        refine .modify_bind (.pure ?_)
        exact ⟨_, .group b, rest, .cons (hw.append (.cons .nil)), .group rfl hlt hb rfl, rfl, before_leave h.before⟩

/-- An atom is read up to its last token. -/
theorem atom_ends {fuel : Nat} (hinside : ReadsChoices ts₀ fuel) (hfuel : ts.length < fuel + 1) (hd : d ≤ maxDepth)
    (hopens : Opens d ts₀ ts) (h : (inside ts₀ d).Holds t s ts) (hcloses : ¬ Closes (d = 0) t.kind)
    (hnone : t.kind ≠ none) : ReadsAtom ts₀ ts d (atom (fuel + 1) (d + 1) t) s := by
  cases ts with
  | ended p =>
      exact absurd h.kind_eq hnone
  | failed p =>
      exact absurd h.front (by simp [front])
  | token k c p rest =>
      have hrest : rest.length < fuel := Nat.lt_of_succ_lt_succ hfuel
      obtain rfl := Except.ok.inj h.front
      by_cases hgroup : k = .groupBegin
      · subst hgroup
        exact group_ends hinside hrest hd hopens h
      rw [atom]
      dsimp only
      split
      · obtain rfl := Option.some.inj ‹_›
        refine h.before.next_bind ?_ fun t s h => (characterClass_ends h hrest).imp ?_ ?_
        · rintro p s rfl hstopped
          exact ⟨d, _, hd, hopens, .characterClass rfl, hstopped⟩
        · rintro e s ⟨herror, hstopped⟩
          exact ⟨d, _, hd, hopens, .characterClass herror, hstopped⟩
        · rintro tree s ⟨l, hl, rfl, hbefore⟩
          rcases CharacterClass.read_written hl with ⟨w, l', hw, hclass, hranges⟩
          exact ⟨_, .characterClass l', _, .cons hw, .characterClass rfl hclass, by rw [hranges]; rfl, hbefore⟩
      · exact absurd (Option.some.inj ‹_›) hgroup
      · obtain rfl := Option.some.inj ‹_›
        exact .pure ⟨_, .wildcard, _, .cons .nil, .wildcard rfl, rfl, h.before⟩
      · -- Tokens that end a sequence have been taken out before, and all others stand for their character.
        rename_i h₁ h₂ h₃
        have hl : Literal d k := by
          refine ⟨fun hk => h₃ (congrArg some hk), fun hk => h₁ (congrArg some hk), hgroup, ?_, ?_⟩
          · rintro rfl
            exact hcloses (.inl rfl)
          · rintro hpos rfl
            exact hcloses (.inr (.inr ⟨rfl, by simpa using Nat.ne_of_gt hpos⟩))
        exact .pure ⟨_, .literal c, _, .cons .nil, .literal hl, rfl, h.before⟩

/-- Behind an atom its quantifier is read, with the first token of what follows the term. -/
theorem term_bind {α : Type} {fuel : Nat} {mid : Tokens} {w : List Token} {a : Atom} {f : Tree × Item → Parser α}
    {P : α → Cursor → Prop} (hd : d ≤ maxDepth) (hopens : Opens d ts₀ ts) (ha : a.Derives d w)
    (hw : Reads ts w mid) (hfuel : mid.length < fuel) (h : (inside ts₀ d).Before s mid)
    (hf : ∀ q rest t s', Suffix mid q rest → (inside ts₀ d).Holds t s' rest →
      Ends (f (quantifiedTree a.tree q, t)) s' (Broken ts₀) P) :
    Ends (next >>= fun t => quantified fuel a.tree t >>= f) s (Broken ts₀) P := by
  refine h.next_bind ?_ fun t s h => (quantified_ends h hfuel).seq ?_ ?_
  · rintro p s rfl hstopped
    have hnone : Suffix (.failed p) none (.failed p) := .plain (by simp [Unquantified, kind?])
    exact .failed hd (hopens.terms (.term ha hw hnone .nil)) hstopped
  · rintro e s ⟨herror | ⟨tree, p, hok, rfl⟩, hstopped⟩
    · exact ⟨d, _, hd, hopens, .quantified ha hw herror, hstopped⟩
    · rcases quantified_iff.1 hok with ⟨q, hsuffix, -⟩
      exact .failed hd (hopens.terms (.term ha hw hsuffix .nil)) hstopped
  · rintro ⟨tree, t⟩ s ⟨rest, hok, h⟩
    rcases quantified_iff.1 hok with ⟨q, hsuffix, rfl⟩
    exact hf q rest t s hsuffix h

theorem length_lt_of_derives {mid : Tokens} {w : List Token} {a : Atom} (ha : a.Derives d w) (hw : Reads ts w mid) :
    mid.length < ts.length := by
  rw [hw.length_eq]
  exact Nat.lt_add_of_pos_left (List.length_pos_iff.2 ha.ne_nil)

/-- A sequence is read with the token that ends it, a bar or the end of its choice. -/
theorem sequence_ends {fuel : Nat} (hinside : ∀ n < fuel, ReadsChoices ts₀ n) (terms : List Tree)
    (hfuel : ts.length < fuel) (hd : d ≤ maxDepth) (hopens : Opens d ts₀ ts) (h : (inside ts₀ d).Holds t s ts) :
    Ends (sequence fuel (d + 1) (d = 0) terms t) s (Broken ts₀) fun r s' =>
      ∃ w b rest, Reads ts w rest ∧ b.Derives d w ∧ r.1 = Tree.seqOf (terms ++ Branch.terms b) ∧
        (rest.kind? = some .alternative ∨ Ended d rest.kind?) ∧ Opens d ts₀ rest ∧
          (inside ts₀ d).Holds r.2 s' rest := by
  induction fuel generalizing ts s t terms with
  | zero =>
      exact absurd hfuel (Nat.not_lt_zero _)
  | succ fuel ih =>
    rw [sequence]
    have hturn : Turn.Counts ts₀ ⟨s.depth, d + 1, s.place t⟩ := by
      rw [h.place_eq, h.depth]
      exact ⟨hd, rfl, hopens⟩
    refine .modify_bind ?_
    -- Recording a turn changes nothing else, so the token is still in hand.
    have h' : (inside ts₀ d).Holds t { s with turns := ⟨s.depth, d + 1, s.place t⟩ :: s.turns } ts :=
      ⟨⟨h.depth, List.forall_mem_cons.2 ⟨hturn, h.turns⟩⟩, h.ready, h.front, h.position, h.chain, h.reads⟩
    by_cases hcloses : Closes (d = 0) t.kind
    · rw [if_pos hcloses]
      refine .pure ⟨[], .nil, ts, .nil, .nil, by rw [Branch.terms, List.append_nil], ?_, hopens, h'⟩
      exact closes_iff.1 (h.kind_eq ▸ hcloses)
    · rw [if_neg hcloses]
      by_cases hnone : t.kind = none
      · rw [if_pos hnone]
        have hpos : 0 < d := by
          rw [Nat.pos_iff_ne_zero]
          rintro rfl
          exact hcloses (.inr (.inl ⟨hnone, rfl⟩))
        cases ts with
        | token => exact absurd (h.kind_eq.symm.trans hnone) (by simp [kind?])
        | failed => exact absurd h.front (by simp [front])
        | ended p => exact h'.fail ⟨d, _, hd, hopens, .unclosed hpos, h'.stopped⟩
      · rw [if_neg hnone]
        refine (atom_ends (hinside fuel (Nat.lt_succ_self _)) hfuel hd hopens h' hcloses hnone).seq
          (fun _ _ h => h) ?_
        rintro _ s ⟨u, a, mid, hu, ha, rfl, hbefore⟩
        have hmid : mid.length < fuel := Nat.lt_of_lt_of_le (length_lt_of_derives ha hu) (Nat.le_of_lt_succ hfuel)
        refine term_bind hd hopens ha hu hmid hbefore fun q next t s hq h => ?_
        rcases hq.exists_word with ⟨v, hv, -⟩
        have hnext : next.length < fuel := Nat.lt_of_le_of_lt (hv.length_eq ▸ Nat.le_add_left _ _) hmid
        have hplace : Opens d ts₀ next := hopens.terms (.term ha hu hq .nil)
        refine (ih (fun n hn => hinside n (Nat.lt_succ_of_lt hn)) _ hnext hplace h).imp (fun _ _ h => h) ?_
        rintro r s ⟨w, b, rest, hw, hb, htree, hends, hrest, h⟩
        rcases hq.exists_follows hw with ⟨v, hv, hfollows⟩
        rw [← List.append_nil w] at hfollows
        rcases Branch.Derives.cons ha hb hfollows with ⟨v', rfl, hcons⟩
        rw [List.append_nil] at hv
        refine ⟨_, .cons a q b, rest, hu.append hv, hcons, ?_, hends, hrest, h⟩
        rw [htree, List.append_assoc]
        rfl

/-- A choice is read with the token that ends it. -/
theorem alternative_ends (ts₀ : Tokens) (fuel : Nat) : ReadsChoices ts₀ fuel := by
  induction fuel using Nat.strongRecOn with
  | _ fuel hinside =>
    intro ts d s t branches hfuel hd hopens h
    cases fuel with
    | zero =>
        exact absurd hfuel (Nat.not_lt_zero _)
    | succ fuel =>
      rw [alternative]
      refine (sequence_ends hinside [] hfuel hd hopens h).seq (fun _ _ h => h) ?_
      rintro ⟨tree, t⟩ s ⟨w, b, rest, hw, hb, rfl, hends, hopens, h⟩
      dsimp only at h ⊢
      by_cases hbar : t.kind = some .alternative
      · rw [if_pos hbar]
        rcases kind?_eq_some_iff.1 (h.kind_eq.symm.trans hbar) with ⟨c, p, rest, rfl⟩
        have hbehind := hopens.terms (.bar .nil)
        refine h.before.next_bind ?_ fun t s h => ?_
        · rintro p s rfl hstopped
          exact .failed hd hbehind hstopped
        · -- The bar is read, so less fuel is enough for the other branches.
          have hrest : rest.length < fuel := by
            rw [hw.length_eq] at hfuel
            exact Nat.lt_of_succ_lt_succ (Nat.lt_of_le_of_lt (Nat.le_add_left _ _) hfuel)
          refine (hinside fuel (Nat.lt_succ_self _) _ hrest hd hbehind h).imp (fun _ _ h => h) ?_
          rintro r s ⟨v, more, rest', hv, hmore, htree, hended, h⟩
          refine ⟨_, .bar b more, rest', hw.append (.cons hv), .bar hb rfl hmore, ?_, hended, h⟩
          rw [htree, List.append_assoc]
          rfl
      · rw [if_neg hbar]
        rw [h.kind_eq] at hbar
        exact .pure ⟨w, .last b, rest, hw, .last hb, rfl, hends.resolve_left hbar, h⟩

/-! ## Whole patterns -/

/-- What the state is behind a regular expression. -/
structure Cursor.After (ts : Tokens) (r : Except SyntaxError Tree) (s : Cursor) : Prop where
  reads_le : s.reads ≤ ts.length + 1
  turns : ∀ m ∈ s.turns, m.Counts ts
  depth_of_ok : ∀ t, r = .ok t → s.depth = 0
  breaks : ∀ e, r = .error e → s.depth ≤ maxDepth ∧ ∃ rest, Opens s.depth ts rest ∧ Regex.Breaks s.depth rest e

theorem Broken.after {e : SyntaxError} (h : Broken ts e s) : Regex.parse ts = .error e ∧ s.After ts (.error e) := by
  rcases h with ⟨d, rest, hd, hopens, hbreaks, hstopped⟩
  obtain rfl : s.depth = d := hstopped.depth
  refine ⟨parse_eq_error_iff.2 ⟨_, rest, hd, hopens, hbreaks⟩, hstopped.reads_le, hstopped.turns, by simp, ?_⟩
  rintro e' heq
  obtain rfl := Except.error.inj heq
  exact ⟨hd, rest, hopens, hbreaks⟩

/-- The functions come to an end, and their answer is that of the reader. -/
theorem parse_regex (pattern : String) :
    ∃ s, Descent.parse .regex pattern = some (Dialect.regex.parse pattern, s) ∧
      s.After (Dialect.regex.tokens pattern) (Dialect.regex.parse pattern) := by
  have hbefore : (inside (Dialect.regex.tokens pattern) 0).Before
      { scanner := .ofString Dialect.regex.lexer pattern } (Dialect.regex.tokens pattern) :=
    ⟨⟨rfl, by simp⟩, Dialect.regex.ready_ofString pattern, rfl, Nat.zero_add _⟩
  have hends : Ends (regex (pattern.length + 1)) { scanner := .ofString Dialect.regex.lexer pattern }
      (fun e s => Dialect.regex.parse pattern = .error e ∧
        s.After (Dialect.regex.tokens pattern) (.error e))
      fun t s => Dialect.regex.parse pattern = .ok t ∧ s.After (Dialect.regex.tokens pattern) (.ok t) := by
    rw [regex]
    refine hbefore.next_bind ?_ fun t s h => ?_
    · rintro p s heq hstopped
      exact Broken.after (.failed (Nat.zero_le _) (heq ▸ .pattern .nil) hstopped)
    · have hfuel := Nat.lt_succ_of_le (Dialect.regex.length_tokens_le pattern)
      refine (alternative_ends _ _ [] hfuel (Nat.zero_le _) (.pattern .nil) h).seq (fun _ _ h => h.after) ?_
      rintro ⟨tree, t⟩ s ⟨w, c, rest, hw, hc, rfl, hended, h⟩
      rcases hended with ⟨hnone, -⟩ | ⟨-, hpos⟩
      · -- No token is in hand, so this is the end of the pattern, with no group open.
        cases rest with
        | token => exact absurd hnone (by simp [kind?])
        | failed => exact absurd h.front (by simp [front])
        | ended p =>
            have hparse := parse_eq_ok_iff.2 ⟨w, c, word?_eq_some_iff.2 ⟨p, hw⟩, hc, rfl⟩
            exact .pure ⟨hparse, h.stopped.reads_le, h.turns, fun _ _ => h.depth, by simp⟩
      · exact absurd hpos (Nat.lt_irrefl 0)
  rcases hends with ⟨r, s, hrun, h⟩
  cases r with
  | ok t => exact ⟨s, h.1 ▸ hrun, h.1 ▸ h.2⟩
  | error e => exact ⟨s, h.1 ▸ hrun, h.1 ▸ h.2⟩

theorem parse_glob (pattern : String) :
    ∃ s, Descent.parse .glob pattern = some (Dialect.glob.parse pattern, s) ∧
      s.reads ≤ (Dialect.glob.tokens pattern).length + 1 := by
  let F : Frame := ⟨.glob, (Dialect.glob.tokens pattern).length, 0, fun _ => True⟩
  have hbefore : F.Before { scanner := .ofString Dialect.glob.lexer pattern } (Dialect.glob.tokens pattern) :=
    ⟨⟨rfl, by simp⟩, Dialect.glob.ready_ofString pattern, rfl, Nat.zero_add _⟩
  have hends : ReadsGlob F [] (Dialect.glob.tokens pattern) (glob (pattern.length + 1) []) _ :=
    glob_ends hbefore (Nat.lt_succ_of_le (Dialect.glob.length_tokens_le pattern))
  rcases hends with ⟨r, s, hrun, h⟩
  cases r with
  | ok tree =>
      rcases h with ⟨us, hus, rfl, hstopped⟩
      have hparse : Dialect.glob.parse pattern = .ok (Tree.seqOf us) := SyntaxError.map_eq_ok_iff.2 ⟨us, hus, rfl⟩
      exact ⟨s, hparse ▸ hrun, hstopped.reads_le⟩
  | error e =>
      have hparse : Dialect.glob.parse pattern = .error e := SyntaxError.map_eq_error_iff.2 h.1
      exact ⟨s, hparse ▸ hrun, h.2.reads_le⟩

/-- In both dialects the functions give the answer of the reader, and read no token behind the end. -/
theorem parse_eq (d : Dialect) (pattern : String) :
    ∃ s, Descent.parse d pattern = some (d.parse pattern, s) ∧ s.reads ≤ (d.tokens pattern).length + 1 := by
  cases d with
  | regex =>
      rcases parse_regex pattern with ⟨s, hrun, hafter⟩
      exact ⟨s, hrun, hafter.reads_le⟩
  | glob =>
      exact parse_glob pattern

end Descent

end MaximalMunch
