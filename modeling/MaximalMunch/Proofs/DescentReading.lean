import MaximalMunch.Proofs.Descent
import MaximalMunch.Proofs.GlobMatching
import MaximalMunch.Proofs.RegexReading

/-!
# What recursive descent reads

The functions that read the parts of a pattern take the tokens that the readers of chains take, and have the same
answers and errors. They read each token once, and the end of the pattern once.

- `Descent.Frame`          : what stays the same while a part is read
- `Frame.Before`, `Holds`  : the tokens that are still to be read, without or with a token in hand
- `Frame.Stopped`          : no token behind the end has been read
- `Before.next_bind`       : a read, and what is done behind it
- `classItems_ends`, `characterClass_ends`, `bounds_ends`, `quantified_ends`, `glob_ends` : the parts
-/

namespace MaximalMunch

namespace Descent

open Token Tokens CodePoint

/-! ## States -/

/-- What stays the same while a part of a pattern is read: the dialect, the number of tokens of the pattern, the
counter, and what is known of the recorded turns. -/
structure Frame where
  dialect : Dialect
  length : Nat
  depth : Nat
  Good : Turn → Prop

namespace Frame

structure Kept (F : Frame) (s : Cursor) : Prop where
  depth : s.depth = F.depth
  turns : ∀ m ∈ s.turns, F.Good m

/-- No token behind the end has been asked for. -/
structure Stopped (F : Frame) (s : Cursor) : Prop extends F.Kept s where
  reads_le : s.reads ≤ F.length + 1

/-- The chain `ts` is still to be read. -/
structure Before (F : Frame) (s : Cursor) (ts : Tokens) : Prop extends F.Kept s where
  ready : s.scanner.Ready F.dialect.table.lexer
  chain : ofScanner s.scanner = ts
  reads : s.reads + ts.length = F.length

/-- The first token of the chain `ts` is in hand, and the others are still to be read. -/
structure Holds (F : Frame) (t : Item) (s : Cursor) (ts : Tokens) : Prop extends F.Kept s where
  ready : s.scanner.Ready F.dialect.table.lexer
  front : ts.front = .ok t
  position : s.scanner.position = ts.position
  chain : ofScanner s.scanner = ts.behind
  reads : s.reads + ts.length = F.length + 1

variable {F : Frame} {s : Cursor} {t : Item} {ts rest : Tokens}

theorem Holds.stopped (h : F.Holds t s ts) : F.Stopped s :=
  ⟨h.toKept, Nat.le_of_add_right_le (Nat.le_of_eq h.reads)⟩

theorem Holds.kind_eq (h : F.Holds t s ts) : t.kind = ts.kind? := by
  have hfront := h.front
  cases ts with
  | token | ended => rw [← Except.ok.inj hfront]; rfl
  | failed => exact absurd hfront (by simp [Tokens.front])

/-- Behind a token in hand, the rest of the chain is to be read. -/
theorem Holds.before {k : Kind} {c : Char} {p : Nat} (h : F.Holds t s (token k c p rest)) : F.Before s rest where
  toKept := h.toKept
  ready := h.ready
  chain := h.chain
  reads := Nat.succ.inj h.reads

theorem Holds.place_eq (h : F.Holds t s ts) : s.place t = ts := by
  have hfront := h.front
  have hchain := h.chain
  have hposition := h.position
  cases ts with
  | token k c p rest =>
      rw [← Except.ok.inj hfront, Cursor.place, hchain, hposition]
      rfl
  | ended p =>
      rw [← Except.ok.inj hfront, Cursor.place, hposition]
      rfl
  | failed => exact absurd hfront (by simp [Tokens.front])

/-- A read takes the next token in hand. -/
theorem Before.next (h : F.Before s ts) :
    Ends next s (fun e s' => ts.front = .error e ∧ F.Stopped s') fun t s' => F.Holds t s' ts := by
  rcases readNext_ofScanner F.dialect.readable_table h.ready with ⟨hread, hposition, hchain, hready⟩
  rw [h.chain] at hread hposition hchain
  have hreads : s.reads + 1 + ts.length = F.length + 1 := by
    rw [Nat.add_right_comm, h.reads]
  -- The read is counted before its answer is looked at.
  refine .bind ⟨.ok s, s, rfl, .bind ⟨.ok (), _, rfl, ?_⟩⟩
  dsimp only
  rw [hread]
  cases hfront : ts.front with
  | ok t =>
      exact .pure ⟨⟨h.depth, h.turns⟩, hready, hfront, hposition, hchain, hreads⟩
  | error e =>
      exact ⟨.error e, _, rfl, rfl, ⟨h.depth, h.turns⟩, Nat.le_of_add_right_le (Nat.le_of_eq hreads)⟩

/-- A read in front of a program either fails or takes the next token in hand. -/
theorem Before.next_bind {α : Type} {f : Item → Parser α} {E : SyntaxError → Cursor → Prop}
    {Q : α → Cursor → Prop} (h : F.Before s ts)
    (hE : ∀ p s', ts = .failed p → F.Stopped s' → E ⟨.unrecognizedCharacter, p⟩ s')
    (hf : ∀ t s', F.Holds t s' ts → Ends (f t) s' E Q) : Ends (Descent.next >>= f) s E Q := by
  refine h.next.seq (fun e s' ⟨hfront, hstopped⟩ => ?_) hf
  cases ts with
  | token | ended => exact absurd hfront (by simp [Tokens.front])
  | failed p =>
      rw [← Except.error.inj hfront]
      exact hE p s' rfl hstopped

/-- A failure has the position of the token in hand. -/
theorem Holds.fail {α : Type} {kind : SyntaxError.Kind} {E : SyntaxError → Cursor → Prop} {P : α → Cursor → Prop}
    (h : F.Holds t s ts) (hE : E ⟨kind, ts.position⟩ s) : Ends (Descent.fail kind) s E P := by
  refine ends_fail ?_
  rwa [h.position]

end Frame

variable {F : Frame} {s : Cursor} {t : Item} {ts rest : Tokens} {α : Type} {E : SyntaxError → Cursor → Prop}
  {P : α → Cursor → Prop}

/-! ## Classes -/

/-- An item with a range sign behind it goes on with the end of the range. -/
theorem classItems_range {fuel : Nat} {ranges : List Range} {k : Kind} {x c : Char} {q p : Nat} (hk : k ≠ .classEnd)
    (h : F.Holds t s (token k x q (token .range c p rest)))
    (hE : ∀ p s', rest = .failed p → F.Stopped s' → E ⟨.unrecognizedCharacter, p⟩ s')
    (hended : ∀ p s', rest = .ended p → F.Stopped s' → E ⟨.unfinishedClass, p⟩ s')
    {P : List Range → Cursor → Prop}
    (hf : ∀ k' y p' ts s', rest = token k' y p' ts → F.Holds ⟨some k', some y⟩ s' rest →
      Ends (if y < x then fail .invalidRange else next >>= classItems fuel (ranges ++ [⟨ofChar x, ofChar y⟩]))
        s' E P) :
    Ends (classItems (fuel + 1) ranges t) s E P := by
  obtain rfl := Except.ok.inj h.front
  rw [classItems, if_neg (by simpa using hk)]
  refine h.before.next_bind (by simp) fun t s h => ?_
  obtain rfl := Except.ok.inj h.front
  rw [if_pos rfl]
  refine h.before.next_bind hE fun t s h => ?_
  cases rest with
  | token k' y p' ts =>
      obtain rfl := Except.ok.inj h.front
      exact hf k' y p' ts s rfl h
  | ended p =>
      obtain rfl := Except.ok.inj h.front
      exact h.fail (hended p s rfl h.stopped)
  | failed p => exact absurd h.front (by simp [front])

/-- What a program that reads the items of a class from `ts` on does behind its first items. -/
def ReadsItems (F : Frame) (ranges : List Range) (ts : Tokens) (x : Parser (List Range)) (s : Cursor) : Prop :=
  Ends x s (fun e s' => CharacterClass.items ts = .error e ∧ F.Stopped s')
    fun rs s' => ∃ c, CharacterClass.items ts = .ok c ∧ rs = ranges ++ c.ranges ∧ F.Before s' c.rest

/-- One more item in front of others. -/
theorem ReadsItems.cons {ranges : List Range} {r : Range} {x : Parser (List Range)}
    (h : ReadsItems F (ranges ++ [r]) rest x s)
    (hts : CharacterClass.items ts = (CharacterClass.items rest).map (CharacterClass.cons r)) :
    ReadsItems F ranges ts x s := by
  refine Ends.imp h ?_ ?_
  · rintro e s ⟨herror, hstopped⟩
    exact ⟨hts ▸ SyntaxError.map_eq_error_iff.2 herror, hstopped⟩
  · rintro _ s ⟨c, hc, rfl, hbefore⟩
    exact ⟨c.cons r, hts ▸ SyntaxError.map_eq_ok_iff.2 ⟨c, hc, rfl⟩, by simp [CharacterClass.cons], hbefore⟩

/-- The items are those of the class, up to its end or to its error. -/
theorem classItems_ends {fuel : Nat} {ranges : List Range} (h : F.Holds t s ts) (hfuel : ts.length < fuel) :
    ReadsItems F ranges ts (classItems fuel ranges t) s := by
  induction fuel generalizing ts s t ranges with
  | zero =>
      exact absurd hfuel (Nat.not_lt_zero _)
  | succ fuel ih =>
    fun_cases CharacterClass.items ts with
    | case1 p =>
        obtain rfl := Except.ok.inj h.front
        rw [classItems, if_neg (by simp)]
        exact h.fail ⟨rfl, h.stopped⟩
    | case2 p =>
        exact absurd h.front (by simp [front])
    | case3 c p rest =>
        obtain rfl := Except.ok.inj h.front
        rw [classItems, if_pos rfl]
        exact .pure ⟨_, rfl, (List.append_nil ranges).symm, h.before⟩
    | case4 k x q c q' k' y p rest hk hlt =>
        refine classItems_range hk h (by simp) (by simp) ?_
        rintro k' y p ts s ⟨⟩ h
        rw [if_pos hlt]
        exact h.fail ⟨by simp [CharacterClass.items, hlt, position], h.stopped⟩
    | case5 k x q c q' k' y p rest hk hle =>
        have hrest : rest.length < fuel := by
          simp only [Tokens.length] at hfuel
          omega
        refine classItems_range hk h (by simp) (by simp) ?_
        rintro k' y p ts s ⟨⟩ h
        rw [if_neg hle]
        refine h.before.next_bind ?_ fun t s h =>
          (ih h hrest).cons (CharacterClass.items_range hk (Char.not_lt.1 hle))
        rintro p s rfl hstopped
        exact ⟨by rw [CharacterClass.items_range hk (Char.not_lt.1 hle)]; rfl, hstopped⟩
    | case6 k x q c q' p hk =>
        refine classItems_range hk h (by simp) ?_ (by simp)
        rintro p s ⟨⟩ hstopped
        exact ⟨by simp [CharacterClass.items], hstopped⟩
    | case7 k x q c q' p hk =>
        refine classItems_range hk h ?_ (by simp) (by simp)
        rintro p s ⟨⟩ hstopped
        exact ⟨by simp [CharacterClass.items], hstopped⟩
    | case8 k x q rest hk hrange hended hfailed =>
        obtain rfl := Except.ok.inj h.front
        rw [classItems, if_neg (by simpa using hk)]
        refine h.before.next_bind ?_ fun t s h => ?_
        · rintro p s rfl hstopped
          exact ⟨by rw [CharacterClass.items_single hk (by simp [kind?])]; rfl, hstopped⟩
        · have hkind := CharacterClass.kind?_ne_range hrange hended hfailed
          rw [if_neg (h.kind_eq ▸ hkind)]
          exact (ih h (Nat.lt_of_succ_lt_succ hfuel)).cons (CharacterClass.items_single hk hkind)

theorem negation_ends (h : F.Holds t s ts) :
    Ends (negation t) s (fun e s' => CharacterClass.read ts = .error e ∧ F.Stopped s')
      fun r s' => r.1 = (CharacterClass.negation ts).1 ∧ F.Holds r.2 s' (CharacterClass.negation ts).2 := by
  rw [negation]
  by_cases hk : t.kind = some .negate
  · rw [if_pos hk]
    rcases kind?_eq_some_iff.1 (h.kind_eq.symm.trans hk) with ⟨c, p, rest, rfl⟩
    refine h.before.next_bind ?_ fun t s h => .pure ⟨rfl, h⟩
    rintro p s rfl hstopped
    exact ⟨rfl, hstopped⟩
  · rw [if_neg hk]
    rw [h.kind_eq] at hk
    have hnone : CharacterClass.negation ts = (false, ts) := by
      unfold CharacterClass.negation
      split
      · exact absurd rfl hk
      · rfl
    rw [hnone]
    exact .pure ⟨rfl, h⟩

theorem leadingBracket_ends (h : F.Holds t s ts) :
    Ends (leadingBracket t) s
      (fun e s' => CharacterClass.items (CharacterClass.leadingBracket ts).2 = .error e ∧ F.Stopped s')
      fun r s' => r.1 = (CharacterClass.leadingBracket ts).1 ∧ F.Holds r.2 s' (CharacterClass.leadingBracket ts).2 := by
  rw [leadingBracket]
  by_cases hk : t.kind = some .classEnd
  · rw [if_pos hk]
    rcases kind?_eq_some_iff.1 (h.kind_eq.symm.trans hk) with ⟨c, p, rest, rfl⟩
    obtain rfl := Except.ok.inj h.front
    refine h.before.next_bind ?_ fun t s h => .pure ⟨rfl, h⟩
    rintro p s rfl hstopped
    exact ⟨rfl, hstopped⟩
  · rw [if_neg hk]
    rw [h.kind_eq] at hk
    have hnone : CharacterClass.leadingBracket ts = ([], ts) := by
      unfold CharacterClass.leadingBracket
      split
      · exact absurd rfl hk
      · rfl
    rw [hnone]
    exact .pure ⟨rfl, h⟩

/-- A class is read as it is from the chain of tokens. -/
theorem characterClass_ends {fuel : Nat} (h : F.Holds t s ts) (hfuel : ts.length < fuel) :
    Ends (characterClass fuel t) s (fun e s' => CharacterClass.read ts = .error e ∧ F.Stopped s')
      fun tree s' =>
        ∃ c, CharacterClass.read ts = .ok c ∧ tree = .characters c.ranges ∧ F.Before s' c.rest := by
  rw [characterClass]
  refine (negation_ends h).seq (fun _ _ h => h) ?_
  rintro ⟨negated, t⟩ s ⟨rfl, h⟩
  refine (leadingBracket_ends h).seq ?_ ?_
  · rintro e s ⟨herror, hstopped⟩
    exact ⟨by rw [CharacterClass.read_eq, herror]; rfl, hstopped⟩
  · rintro ⟨first, t⟩ s ⟨rfl, h⟩
    have hitems : (CharacterClass.leadingBracket (CharacterClass.negation ts).2).2.length < fuel :=
      Nat.lt_of_le_of_lt (CharacterClass.length_leadingBracket_le _)
        (Nat.lt_of_le_of_lt (CharacterClass.length_negation_le _) hfuel)
    refine (classItems_ends h hitems).seq ?_ ?_
    · rintro e s ⟨herror, hstopped⟩
      exact ⟨by rw [CharacterClass.read_eq, herror]; rfl, hstopped⟩
    · rintro ranges s ⟨c, hc, rfl, hbefore⟩
      have hread := CharacterClass.read_eq ts
      rw [hc] at hread
      exact .pure ⟨_, hread, rfl, hbefore⟩

/-! ## Quantifiers -/

/-- Where what follows a run of digits is no token, the chain has a number and the program an error. -/
theorem number_ends {fuel : Nat} {n : Option Nat} (h : F.Holds t s ts) (hfuel : ts.length < fuel) :
    Ends (number fuel n t) s
      (fun e s' => (Bounds.number n ts = .error e ∨
        ∃ m p, Bounds.number n ts = .ok (m, .failed p) ∧ e = ⟨.unrecognizedCharacter, p⟩) ∧ F.Stopped s')
      fun r s' => ∃ rest, Bounds.number n ts = .ok (r.1, rest) ∧ F.Holds r.2 s' rest := by
  induction fuel generalizing ts s t n with
  | zero =>
      exact absurd hfuel (Nat.not_lt_zero _)
  | succ fuel ih =>
    fun_cases Bounds.number n ts with
    | case1 c p ts k hk =>
        obtain rfl := Except.ok.inj h.front
        rw [number, if_pos rfl]
        simp only [Option.bind_some, hk]
        refine h.before.next_bind ?_ fun t s h => ih h (Nat.lt_of_succ_lt_succ hfuel)
        rintro p s rfl hstopped
        exact ⟨.inr ⟨_, p, rfl, rfl⟩, hstopped⟩
    | case2 c p ts hnone =>
        obtain rfl := Except.ok.inj h.front
        rw [number, if_pos rfl]
        simp only [Option.bind_some, hnone]
        exact h.fail ⟨.inl rfl, h.stopped⟩
    | case3 n hnot =>
        rw [number, if_neg]
        · exact .pure ⟨ts, rfl, h⟩
        · rw [h.kind_eq, kind?_eq_some_iff]
          rintro ⟨c, p, rest, rfl⟩
          exact hnot c p rest rfl

theorem close_ends {min : Nat} {max : Option Nat} (h : F.Holds t s ts) :
    Ends (if t.kind = some .repeatEnd then pure (min, max) else fail .unfinishedRepeat) s
      (fun e s' => Bounds.close min max ts = .error e ∧ F.Stopped s')
      fun r s' => ∃ b, Bounds.close min max ts = .ok b ∧ r = (b.min, b.max) ∧ F.Before s' b.rest := by
  by_cases hk : t.kind = some .repeatEnd
  · rw [if_pos hk]
    rcases kind?_eq_some_iff.1 (h.kind_eq.symm.trans hk) with ⟨c, p, rest, rfl⟩
    exact .pure ⟨_, rfl, rfl, h.before⟩
  · rw [if_neg hk]
    rw [h.kind_eq] at hk
    refine h.fail ⟨?_, h.stopped⟩
    unfold Bounds.close
    split
    · exact absurd rfl hk
    · exact absurd h.front (by simp [front])
    · rfl

theorem number_failed (n : Option Nat) (p : Nat) : Bounds.number n (.failed p) = .ok (n, .failed p) := by
  rw [Bounds.number]
  simp

/-- Without a comma behind the first number, it is the only one. -/
theorem read_single {n : Option Nat} (hn : Bounds.number none ts = .ok (n, rest)) (hk : rest.kind? ≠ some .comma) :
    Bounds.read ts = Bounds.close (n.getD 0) (some (n.getD 0)) rest := by
  rw [Bounds.read, hn]
  split
  · rename_i heq
    exact absurd heq (by simp)
  · rename_i heq
    obtain ⟨-, rfl⟩ := by simpa using heq
    exact absurd rfl hk
  · rename_i heq
    obtain ⟨rfl, rfl⟩ := by simpa using heq
    rfl

theorem read_failed (p : Nat) : Bounds.read (.failed p) = .error ⟨.unrecognizedCharacter, p⟩ := by
  rw [read_single (number_failed none p) (by simp [kind?]), Bounds.close]

theorem greatest_ends {fuel : Nat} {n : Option Nat} (hn : Bounds.number none ts = .ok (n, rest))
    (h : F.Holds t s rest) (hfuel : rest.length < fuel) :
    Ends (bounds.greatest fuel (n.getD 0) t) s (fun e s' => Bounds.read ts = .error e ∧ F.Stopped s')
      fun r s' => ∃ rest, Bounds.read ts = Bounds.close (n.getD 0) r.1 rest ∧ F.Holds r.2 s' rest := by
  rw [bounds.greatest]
  by_cases hk : t.kind = some .comma
  · rw [if_pos hk]
    rcases kind?_eq_some_iff.1 (h.kind_eq.symm.trans hk) with ⟨c, p, rest, rfl⟩
    refine h.before.next_bind ?_ fun t s h => (number_ends h (Nat.lt_of_succ_lt hfuel)).seq ?_ ?_
    · rintro p s rfl hstopped
      exact ⟨by rw [Bounds.read, hn]; simp only [number_failed, Bounds.closeOrdered], hstopped⟩
    · rintro e s ⟨herror | ⟨m, p, hm, rfl⟩, hstopped⟩
      · exact ⟨by rw [Bounds.read, hn]; simp only [herror], hstopped⟩
      · exact ⟨by rw [Bounds.read, hn]; simp only [hm, Bounds.closeOrdered], hstopped⟩
    · rintro ⟨m, t⟩ s ⟨rest', hm, h⟩
      have hread : Bounds.read ts = Bounds.closeOrdered (n.getD 0) m rest' := by
        rw [Bounds.read, hn]
        simp only [hm]
      -- The order of the numbers is asked for with the next token in hand, so there is one.
      have htoken : ∀ p, rest' ≠ .failed p := by
        rintro p rfl
        exact absurd h.front (by simp [front])
      rw [Bounds.closeOrdered] at hread
      · dsimp only
        split
        · rename_i hlt
          rw [if_pos hlt] at hread
          exact h.fail ⟨hread, h.stopped⟩
        · rename_i hle
          rw [if_neg hle] at hread
          exact .pure ⟨rest', hread, h⟩
      · exact htoken
  · rw [if_neg hk]
    rw [h.kind_eq] at hk
    exact .pure ⟨rest, read_single hn hk, h⟩

/-- Bounds are read as they are from the chain of tokens. -/
theorem bounds_ends {fuel : Nat} (h : F.Holds t s ts) (hfuel : ts.length < fuel) :
    Ends (bounds fuel t) s (fun e s' => Bounds.read ts = .error e ∧ F.Stopped s')
      fun r s' => ∃ b, Bounds.read ts = .ok b ∧ r = (b.min, b.max) ∧ F.Before s' b.rest := by
  rw [bounds]
  refine (number_ends h hfuel).seq ?_ ?_
  · rintro e s ⟨herror | ⟨m, p, hm, rfl⟩, hstopped⟩
    · exact ⟨by rw [Bounds.read, herror], hstopped⟩
    · exact ⟨by rw [read_single hm (by simp [kind?]), Bounds.close], hstopped⟩
  · rintro ⟨n, t⟩ s ⟨rest, hn, h⟩
    refine (greatest_ends hn h (Nat.lt_of_le_of_lt (Bounds.length_number_le hn) hfuel)).seq (fun _ _ h => h) ?_
    rintro ⟨max, t⟩ s ⟨rest', hread, h⟩
    rw [hread]
    exact close_ends h

/-- What a program that reads the quantifier of a tree from `ts` on does. The token behind the quantifier is read as
well, and where there is none the program has an error and the chain has not. -/
def ReadsQuantifier (F : Frame) (tree : Tree) (ts : Tokens) (x : Parser (Tree × Item)) (s : Cursor) : Prop :=
  Ends x s
    (fun e s' => (Regex.quantified tree ts = .error e ∨
      ∃ tree' p, Regex.quantified tree ts = .ok (tree', .failed p) ∧ e = ⟨.unrecognizedCharacter, p⟩) ∧ F.Stopped s')
    fun r s' => ∃ rest, Regex.quantified tree ts = .ok (r.1, rest) ∧ F.Holds r.2 s' rest

/-- A last read behind the quantifier. -/
theorem ReadsQuantifier.next {tree tree' : Tree} (h : F.Before s rest)
    (hok : Regex.quantified tree ts = .ok (tree', rest)) :
    ReadsQuantifier F tree ts (do return (tree', ← next)) s := by
  refine h.next_bind ?_ fun t s h => .pure ⟨rest, hok, h⟩
  rintro p s rfl hstopped
  exact ⟨.inr ⟨tree', p, hok, rfl⟩, hstopped⟩

/-- A quantifier of one token. -/
theorem ReadsQuantifier.single {tree tree' : Tree} {k : Kind} (h : F.Holds t s ts) (hk : t.kind = some k)
    (hok : ∀ c p rest, Regex.quantified tree (token k c p rest) = .ok (tree', rest)) :
    ReadsQuantifier F tree ts (do return (tree', ← Descent.next)) s := by
  rcases kind?_eq_some_iff.1 (h.kind_eq.symm.trans hk) with ⟨c, p, rest, rfl⟩
  exact .next h.before (hok c p rest)

/-- The quantifier behind an atom is read as it is from the chain of tokens. -/
theorem quantified_ends {fuel : Nat} {tree : Tree} (h : F.Holds t s ts) (hfuel : ts.length < fuel) :
    ReadsQuantifier F tree ts (quantified fuel tree t) s := by
  rw [quantified]
  split
  · exact .single h ‹_› fun _ _ _ => rfl
  · exact .single h ‹_› fun _ _ _ => rfl
  · exact .single h ‹_› fun _ _ _ => rfl
  · rename_i hk
    rcases kind?_eq_some_iff.1 (h.kind_eq.symm.trans hk) with ⟨c, p, rest, rfl⟩
    refine h.before.next_bind ?_ fun t s h => (bounds_ends h (Nat.lt_of_succ_lt hfuel)).seq ?_ ?_
    · rintro p s rfl hstopped
      exact ⟨.inl (by rw [Regex.quantified, read_failed]), hstopped⟩
    · rintro e s ⟨herror, hstopped⟩
      exact ⟨.inl (by rw [Regex.quantified, herror]), hstopped⟩
    · rintro ⟨min, max⟩ s ⟨b, hb, ⟨⟩, hbefore⟩
      exact ReadsQuantifier.next hbefore (by rw [Regex.quantified, hb])
  · rename_i h₁ h₂ h₃ h₄
    refine .pure ⟨ts, ?_, h⟩
    rw [h.kind_eq] at h₁ h₂ h₃ h₄
    refine Regex.quantified_of_unquantified fun k hk hquantifies => ?_
    rcases hquantifies with rfl | rfl | rfl | rfl
    · exact h₂ hk
    · exact h₁ hk
    · exact h₃ hk
    · exact h₄ hk

/-! ## Globs -/

/-- What the program that reads a glob from `ts` on does behind its first elements. -/
def ReadsGlob (F : Frame) (elements : List Tree) (ts : Tokens) (x : Parser Tree) (s : Cursor) : Prop :=
  Ends x s (fun e s' => Glob.elements ts = .error e ∧ F.Stopped s')
    fun tree s' => ∃ us, Glob.elements ts = .ok us ∧ tree = Tree.seqOf (elements ++ us) ∧ F.Stopped s'

/-- One more element in front of others. -/
theorem ReadsGlob.cons {elements : List Tree} {tree : Tree} {x : Parser Tree}
    (h : ReadsGlob F (elements ++ [tree]) rest x s)
    (hts : Glob.elements ts = (Glob.elements rest).map (tree :: ·)) : ReadsGlob F elements ts x s := by
  refine Ends.imp h ?_ ?_
  · rintro e s ⟨herror, hstopped⟩
    exact ⟨hts ▸ SyntaxError.map_eq_error_iff.2 herror, hstopped⟩
  · rintro _ s ⟨us, hus, rfl, hstopped⟩
    exact ⟨tree :: us, hts ▸ SyntaxError.map_eq_ok_iff.2 ⟨us, hus, rfl⟩, by simp, hstopped⟩

theorem glob_ends {fuel : Nat} {elements : List Tree} (h : F.Before s ts) (hfuel : ts.length < fuel) :
    ReadsGlob F elements ts (glob fuel elements) s := by
  induction fuel generalizing elements s ts with
  | zero =>
      exact absurd hfuel (Nat.not_lt_zero _)
  | succ fuel ih =>
    rw [glob]
    refine h.next_bind ?_ fun t s h => ?_
    · rintro p s rfl hstopped
      exact ⟨by rw [Glob.elements], hstopped⟩
    · cases ts with
      | failed p => exact absurd h.front (by simp [front])
      | ended p =>
          obtain rfl := Except.ok.inj h.front
          exact .pure ⟨[], by rw [Glob.elements], by rw [List.append_nil], h.stopped⟩
      | token k c p rest =>
          have hrest : rest.length < fuel := Nat.lt_of_succ_lt_succ hfuel
          obtain rfl := Except.ok.inj h.front
          dsimp only
          split
          · exact absurd ‹_› (by simp)
          · obtain rfl := Option.some.inj ‹_›
            refine h.before.next_bind ?_ fun t s h => (characterClass_ends h hrest).seq ?_ ?_
            · rintro p s rfl hstopped
              exact ⟨by rw [Glob.elements_class]; rfl, hstopped⟩
            · rintro e s ⟨herror, hstopped⟩
              exact ⟨by rw [Glob.elements_class, herror]; rfl, hstopped⟩
            · rintro tree s ⟨l, hl, rfl, hbefore⟩
              refine (ih hbefore (Nat.lt_trans (CharacterClass.length_rest_read hl) hrest)).cons ?_
              rw [Glob.elements_class, hl]
              rfl
          · obtain rfl := Option.some.inj ‹_›
            exact (ih h.before hrest).cons (by rw [Glob.elements])
          · obtain rfl := Option.some.inj ‹_›
            exact (ih h.before hrest).cons (by rw [Glob.elements])
          · rename_i h₁ h₂ h₃ h₄
            have hne : k ≠ .classBegin ∧ k ≠ .wildcard ∧ k ≠ .zeroOrMore := by simp_all
            refine .bind (.pure ((ih h.before hrest).cons ?_))
            exact Glob.elements_char hne.2.2 hne.2.1 hne.1

end Descent

end MaximalMunch
