import MaximalMunch.Proofs.ClassGrammar
import MaximalMunch.Proofs.TokenPosition

/-!
# Reading a character class

What follows an opening bracket is read as a class if it is written like one, and the ranges then cover what the
class lists. What is not written like a class stops behind some items, in an item that is not whole.

- `CharacterClass.read_eq_ok_iff`    : a class is read up to its closing bracket
- `CharacterClass.Listing.Covers`    : the code points of a class
- `CharacterClass.Begun`             : the beginning of a class, up to the tokens of an item that is not whole
- `CharacterClass.Breaks`            : what may follow these tokens so that there is no class
- `CharacterClass.read_eq_error_iff` : reading fails at this place
- `CharacterClass.read_class_exact`  : all this behind any tokens of a pattern, by the position
-/

namespace MaximalMunch

namespace CharacterClass

open CodePoint Tokens

variable {ts rest : Tokens} {w : List Token} {e : SyntaxError}

/-! ## The tokens in front of the items -/

/-- The tokens behind a first one of the kind `k`, if there is one. -/
def skip (k : Token.Kind) : Tokens → Tokens
  | .token k' c p rest => if k' = k then rest else .token k' c p rest
  | ts => ts

theorem skip_of_ne {k : Token.Kind} (h : ts.kind? ≠ some k) : skip k ts = ts := by
  cases ts with
  | ended | failed => rfl
  | token k' c p ts => exact if_neg fun hk => h (congrArg some hk)

theorem reads_skip (k : Token.Kind) (ts : Tokens) : ∃ u, Reads ts u (skip k ts) := by
  by_cases h : ts.kind? = some k
  · rcases kind?_eq_some_iff.1 h with ⟨c, p, rest, rfl⟩
    rw [skip, if_pos rfl]
    exact ⟨_, .cons .nil⟩
  · rw [skip_of_ne h]
    exact ⟨_, .nil⟩

theorem negation_snd (ts : Tokens) : (negation ts).2 = skip .negate ts := by
  by_cases h : ts.kind? = some .negate
  · rcases kind?_eq_some_iff.1 h with ⟨c, p, rest, rfl⟩
    rfl
  · rw [negation_of_ne h, skip_of_ne h]

theorem leadingBracket_snd (ts : Tokens) : (leadingBracket ts).2 = skip .classEnd ts := by
  by_cases h : ts.kind? = some .classEnd
  · rcases kind?_eq_some_iff.1 h with ⟨c, p, rest, rfl⟩
    rfl
  · rw [leadingBracket_of_ne h, skip_of_ne h]

/-! ## The end of a class -/

theorem items_position {c : CharacterClass} (h : items ts = .ok c) :
    ∃ w, ReadsTo ts w c.position c.rest := by
  fun_induction items ts generalizing c with
  | case1 | case2 | case4 | case6 | case7 => exact absurd h (by simp)
  | case3 =>
      obtain rfl := by simpa using h
      exact ⟨_, readsTo_token⟩
  | case5 k x p c' p' k' y p'' rest hk hle ih =>
      rcases SyntaxError.map_eq_ok_iff.1 h with ⟨d, hd, rfl⟩
      rcases ih hd with ⟨w, hw⟩
      exact ⟨_, (Reads.cons (.cons (.cons .nil))).readsTo hw⟩
  | case8 k x p rest hk hrange hended hfailed ih =>
      rcases SyntaxError.map_eq_ok_iff.1 h with ⟨d, hd, rfl⟩
      rcases ih hd with ⟨w, hw⟩
      exact ⟨_, (Reads.cons .nil).readsTo hw⟩

/-- The position of a class is that of the last of its tokens. -/
theorem read_position {c : CharacterClass} (h : read ts = .ok c) :
    ∃ w, ReadsTo ts w c.position c.rest := by
  rw [read_eq] at h
  rcases SyntaxError.map_eq_ok_iff.1 h with ⟨d, hd, rfl⟩
  rw [leadingBracket_snd, negation_snd] at hd
  rcases reads_skip .negate ts with ⟨u, hu⟩
  rcases reads_skip .classEnd (skip .negate ts) with ⟨v, hv⟩
  rcases items_position hd with ⟨w, hw⟩
  exact ⟨_, (hu.append hv).readsTo hw⟩

/-- A class is read up to its closing bracket, and nothing else is read as a class. -/
theorem read_eq_ok_iff {c : CharacterClass} :
    read ts = .ok c ↔ ∃ w l, ReadsTo ts w c.position c.rest ∧ Class w l ∧ c.ranges = l.ranges := by
  constructor
  · intro h
    rcases read_position h with ⟨w, hw⟩
    rcases read_written h with ⟨u, l, hu, hclass, hranges⟩
    rw [hu.unique hw.reads] at hclass
    exact ⟨w, l, hw, hclass, hranges⟩
  · rintro ⟨w, l, hw, hclass, hranges⟩
    rcases hclass.read_eq_ok hw.reads with ⟨p, hok⟩
    rcases read_position hok with ⟨u, hu⟩
    -- Both words lead to one place, so their last tokens end at one position.
    obtain rfl := hu.reads.unique hw.reads
    have hp : p = c.position := hu.unique hw
    rw [hok, hp, ← hranges]

/-! ## The code points of a class -/

/-- The code points of the items, or those of the alphabet that the items leave out. -/
def Listing.Covers (l : Listing) (q : Int) : Prop :=
  if l.negated then 0 ≤ q ∧ q ≤ greatest ∧ ¬ ∃ i ∈ l.items, i.toRange.Covers q
  else ∃ i ∈ l.items, i.toRange.Covers q

theorem Listing.union_ranges_iff {l : Listing} (hl : ∀ i ∈ l.items, i.toRange.InAlphabet) {q : Int} :
    Range.Union l.ranges q ↔ l.Covers q := by
  have hitems : Range.Union (l.items.map Item.toRange) q ↔ ∃ i ∈ l.items, i.toRange.Covers q := by
    simp [Range.Union]
  unfold ranges Covers
  split
  · rw [Range.covers_complement_iff (by simpa using hl), hitems]
  · exact hitems

theorem Listing.inAlphabet_ranges {l : Listing} (hl : ∀ i ∈ l.items, i.toRange.InAlphabet) :
    ∀ r ∈ l.ranges, r.InAlphabet := by
  have hitems : ∀ r ∈ l.items.map Item.toRange, r.InAlphabet := by simpa using hl
  unfold ranges
  split
  · exact Range.inAlphabet_complement hitems
  · exact hitems

/-! ## The beginning of a class -/

/-- The tokens of an item that is not whole: none of them, or all but the last of a range. -/
inductive Dangling : List Token → Prop where
  | none : Dangling []
  | half {x sign : Token} : x.kind ≠ .classEnd → sign.kind = .range → Dangling [x, sign]

/-- Items, and the tokens `u` behind them. -/
inductive ItemsBefore (u : List Token) : List Token → Prop where
  | here : ItemsBefore u u
  | single {x : Token} {w : List Token} :
      x.kind ≠ .classEnd → ¬ Token.Begins w .range → ItemsBefore u w → ItemsBefore u (x :: w)
  | range {x sign y : Token} {w : List Token} :
      x.kind ≠ .classEnd → sign.kind = .range → x.char ≤ y.char → ItemsBefore u w →
        ItemsBefore u (x :: sign :: y :: w)

/-- A token of the kind `k`, if the first one is of this kind, and `P` of what follows. -/
inductive Optionally (k : Token.Kind) (P : List Token → Prop) : List Token → Prop where
  | present {t : Token} {w : List Token} : t.kind = k → P w → Optionally k P (t :: w)
  | absent {w : List Token} : ¬ Token.Begins w k → P w → Optionally k P w

/-- The beginning of a class from behind its opening bracket: a negation and a closing bracket, both if they are
there, then whole items, then the tokens `u`. -/
def Begun (u : List Token) : List Token → Prop :=
  Optionally .negate (Optionally .classEnd (ItemsBefore u))

/-- `Breaks u rest e`: the item that begins with the tokens `u` is not made whole by `rest`. The text ends, or what
follows is no token, or it is the end of a range that lies below its beginning. -/
inductive Breaks : List Token → Tokens → SyntaxError → Prop where
  | ended {u : List Token} {p : Nat} : Dangling u → Breaks u (.ended p) ⟨.unfinishedClass, p⟩
  | failed {u : List Token} {p : Nat} : Dangling u → Breaks u (.failed p) ⟨.unrecognizedCharacter, p⟩
  | inverted {x sign : Token} {k : Token.Kind} {y : Char} {p : Nat} {rest : Tokens} :
      Dangling [x, sign] → y < x.char → Breaks [x, sign] (.token k y p rest) ⟨.invalidRange, p⟩

/-- The tokens are of the form `P u`, and behind `u` they break. -/
def BreaksBehind (P : List Token → List Token → Prop) (ts : Tokens) (e : SyntaxError) : Prop :=
  ∃ w u rest, Reads ts w rest ∧ P u w ∧ Breaks u rest e

/-- Between two items there is no token that breaks. -/
theorem Breaks.kind?_nil (h : Breaks [] rest e) : rest.kind? = none := by
  cases h <;> rfl

theorem ItemsBefore.nil_of_nil {u : List Token} (h : ItemsBefore u []) : u = [] := by
  cases h
  rfl

theorem not_begins_of_kind? {k : Token.Kind} (hw : Reads ts w rest) (hk : ts.kind? ≠ some k) :
    ¬ Token.Begins w k := by
  cases w with
  | nil => exact not_begins_nil
  | cons t w => exact mt (hw.begins_iff (List.cons_ne_nil t w)).1 hk

/-- A word that breaks off and does not begin with a kind is read off tokens that do not either. -/
theorem kind?_ne_of_not_begins {P : List Token → List Token → Prop} (hP : ∀ {u}, P u [] → u = [])
    {u : List Token} {k : Token.Kind} (hw : Reads ts w rest) (hu : P u w) (hbreaks : Breaks u rest e)
    (hnot : ¬ Token.Begins w k) : ts.kind? ≠ some k := by
  cases w with
  | nil =>
      -- Without tokens to read, the text breaks where it begins.
      obtain rfl := hP hu
      obtain rfl := reads_nil_iff.1 hw
      simp [hbreaks.kind?_nil]
  | cons t w =>
      exact mt (hw.begins_iff (List.cons_ne_nil t w)).2 hnot

/-! ## Where reading fails -/

theorem breaks_of_items (h : items ts = .error e) : BreaksBehind ItemsBefore ts e := by
  fun_induction items ts with
  | case1 p =>
      obtain rfl := by simpa using h
      exact ⟨_, _, _, .nil, .here, .ended .none⟩
  | case2 p =>
      obtain rfl := by simpa using h
      exact ⟨_, _, _, .nil, .here, .failed .none⟩
  | case3 => exact absurd h (by simp)
  | case4 k x p c p' k' y p'' rest hk hlt =>
      obtain rfl := by simpa using h
      exact ⟨_, _, _, .cons (.cons .nil), .here, .inverted (.half hk rfl) hlt⟩
  | case5 k x p c p' k' y p'' rest hk hle ih =>
      rcases ih (SyntaxError.map_eq_error_iff.1 h) with ⟨w, u, stop, hw, hu, hbreaks⟩
      exact ⟨_, u, stop, .cons (.cons (.cons hw)), .range hk rfl (Char.not_lt.1 hle) hu, hbreaks⟩
  | case6 k x p c p' p'' hk =>
      obtain rfl := by simpa using h
      exact ⟨_, _, _, .cons (.cons .nil), .here, .ended (.half hk rfl)⟩
  | case7 k x p c p' p'' hk =>
      obtain rfl := by simpa using h
      exact ⟨_, _, _, .cons (.cons .nil), .here, .failed (.half hk rfl)⟩
  | case8 k x p rest hk hrange hended hfailed ih =>
      rcases ih (SyntaxError.map_eq_error_iff.1 h) with ⟨w, u, stop, hw, hu, hbreaks⟩
      have hnot : ¬ Token.Begins w .range := not_begins_of_kind? hw (kind?_ne_range hrange hended hfailed)
      exact ⟨_, u, stop, .cons hw, .single hk hnot hu, hbreaks⟩

/-- What breaks in the first item is refused there. -/
theorem Breaks.items_eq_error {u : List Token} (h : Breaks u rest e) (hu : Reads ts u rest) :
    items ts = .error e := by
  cases h with
  | ended hdangling | failed hdangling =>
      cases hdangling with
      | none =>
          obtain rfl := reads_nil_iff.1 hu
          simp [items]
      | half hx hsign =>
          simp only [reads_cons_iff, reads_nil_iff] at hu
          rcases hu with ⟨p, _, rfl, p', _, rfl, rfl⟩
          simp [items, hsign]
  | inverted hdangling hlt =>
      cases hdangling with
      | half hx hsign =>
          simp only [reads_cons_iff, reads_nil_iff] at hu
          rcases hu with ⟨p, _, rfl, p', _, rfl, rfl⟩
          simp [items, hsign, hlt]

theorem items_of_breaks {u : List Token} (hw : Reads ts w rest) (hu : ItemsBefore u w)
    (hbreaks : Breaks u rest e) : items ts = .error e := by
  induction hu generalizing ts with
  | here =>
      exact hbreaks.items_eq_error hw
  | @single x w hx hnot hu ih =>
      rcases reads_cons_iff.1 hw with ⟨p, ts', rfl, hw'⟩
      have hkind := kind?_ne_of_not_begins ItemsBefore.nil_of_nil hw' hu hbreaks hnot
      rw [items_single hx hkind, ih hw']
      rfl
  | @range x sign y w hx hsign hle hu ih =>
      rcases reads_cons_iff.1 hw with ⟨p, ts₁, rfl, hw₁⟩
      rcases reads_cons_iff.1 hw₁ with ⟨p₁, ts₂, rfl, hw₂⟩
      rcases reads_cons_iff.1 hw₂ with ⟨p₂, ts₃, rfl, hw₃⟩
      rw [hsign, items_range hx hle, ih hw₃]
      rfl

theorem items_eq_error_iff : items ts = .error e ↔ BreaksBehind ItemsBefore ts e := by
  constructor
  · exact breaks_of_items
  · rintro ⟨w, u, rest, hw, hu, hbreaks⟩
    exact items_of_breaks hw hu hbreaks

/-- A token that may be there moves the place where the tokens break. -/
theorem breaksBehind_optionally_iff {P : List Token → List Token → Prop} (hP : ∀ {u}, P u [] → u = [])
    {k : Token.Kind} :
    BreaksBehind (fun u => Optionally k (P u)) ts e ↔ BreaksBehind P (skip k ts) e := by
  by_cases hkind : ts.kind? = some k
  · rcases kind?_eq_some_iff.1 hkind with ⟨c, p, ts, rfl⟩
    rw [skip, if_pos rfl]
    constructor
    · rintro ⟨w, u, rest, hw, hu, hbreaks⟩
      cases hu with
      | present _ hu =>
          rcases reads_cons_iff.1 hw with ⟨q, ts', heq, hw'⟩
          obtain rfl := (Tokens.token.inj heq).2.2.2
          exact ⟨_, u, rest, hw', hu, hbreaks⟩
      | absent hnot hu =>
          exact absurd hkind (kind?_ne_of_not_begins hP hw hu hbreaks hnot)
    · rintro ⟨w, u, rest, hw, hu, hbreaks⟩
      exact ⟨_, u, rest, .cons hw, .present rfl hu, hbreaks⟩
  · rw [skip_of_ne hkind]
    constructor
    · rintro ⟨w, u, rest, hw, hu, hbreaks⟩
      cases hu with
      | present ht hu =>
          exact absurd ((hw.begins_iff (List.cons_ne_nil _ _)).1 (begins_cons_iff.2 ht)) hkind
      | absent _ hu =>
          exact ⟨w, u, rest, hw, hu, hbreaks⟩
    · rintro ⟨w, u, rest, hw, hu, hbreaks⟩
      exact ⟨w, u, rest, hw, .absent (not_begins_of_kind? hw hkind) hu, hbreaks⟩

theorem Optionally.of_nil {k : Token.Kind} {P : List Token → Prop} (h : Optionally k P []) : P [] := by
  cases h with
  | absent _ hP => exact hP

/-- Reading fails just where the beginning of a class breaks. -/
theorem read_eq_error_iff : read ts = .error e ↔ BreaksBehind Begun ts e := by
  rw [read_eq, SyntaxError.map_eq_error_iff, items_eq_error_iff, leadingBracket_snd, negation_snd,
    ← breaksBehind_optionally_iff ItemsBefore.nil_of_nil,
    ← breaksBehind_optionally_iff fun h => h.of_nil.nil_of_nil]
  rfl

/-! ## Behind the tokens of a pattern -/

theorem charInAlphabet_of_reads (hts : ts.InAlphabet) (hw : Reads ts w rest) :
    rest.InAlphabet ∧ ∀ t ∈ w, CharInAlphabet t.char := by
  induction hw with
  | nil => exact ⟨hts, by simp⟩
  | cons _ ih =>
      rcases ih hts.2 with ⟨hrest, hw⟩
      exact ⟨hrest, List.forall_mem_cons.2 ⟨hts.1, hw⟩⟩

/-- Behind any tokens of a pattern, a class is read if the tokens that follow are written like one, and up to its
closing bracket. Its ranges lie in the alphabet and cover the code points of its items, or for a negated class the
others of the alphabet. Where there is no class, reading fails at the place where the beginning of a class breaks.
All positions count the characters of the pattern. -/
theorem read_class_exact {d : Dialect} {pattern : String} {before : List Token}
    (h : Reads (d.tokens pattern) before ts) :
    (∀ c, read ts = .ok c ↔
      ∃ w l, ReadsTo ts w c.position c.rest ∧ Class w l ∧ c.ranges = l.ranges) ∧
    (∀ w l rest, Reads ts w rest → Class w l →
      (∀ r ∈ l.ranges, r.InAlphabet) ∧ ∀ q, Range.Union l.ranges q ↔ l.Covers q) ∧
    (∀ e, read ts = .error e ↔ ∃ w u rest, Reads ts w rest ∧ Begun u w ∧ Breaks u rest e) ∧
    ∀ w rest, Reads ts w rest → d.Placed pattern rest := by
  have hts : ts.InAlphabet := (charInAlphabet_of_reads (d.inAlphabet_tokens pattern) h).1
  refine ⟨fun c => read_eq_ok_iff, fun w l rest hw hclass => ?_, fun e => read_eq_error_iff,
    fun w rest hw => Dialect.placed_of_reads (h.append hw)⟩
  have hl := hclass.inAlphabet (charInAlphabet_of_reads hts hw).2
  exact ⟨Listing.inAlphabet_ranges hl, fun q => Listing.union_ranges_iff hl⟩

/-- For a negated class that leaves out a closing bracket and a range. -/
theorem read_class_exact_negated :
    ∃ ts c, Reads (Dialect.regex.tokens "[^]a-c]x") [⟨.classBegin, '['⟩] ts ∧ read ts = .ok c ∧
      c.position = 7 ∧ ∀ q, Range.Union c.ranges q ↔
        0 ≤ q ∧ q ≤ greatest ∧ q ≠ 93 ∧ ¬ (97 ≤ q ∧ q ≤ 99) := by
  have htokens : Dialect.regex.tokens "[^]a-c]x" =
      .token .classBegin '[' 1 (.token .negate '^' 2 (.token .classEnd ']' 3 (.token .literal 'a' 4
        (.token .range '-' 5 (.token .literal 'c' 6 (.token .classEnd ']' 7 (.token .literal 'x' 8
          (.ended 9)))))))) :=
    (Dialect.tokens_eq_reading _ _).trans (by decide)
  have hreads : Reads (Dialect.regex.tokens "[^]a-c]x")
      ([⟨.classBegin, '['⟩] ++
        [⟨.negate, '^'⟩, ⟨.classEnd, ']'⟩, ⟨.literal, 'a'⟩, ⟨.range, '-'⟩, ⟨.literal, 'c'⟩])
      (.token .classEnd ']' 7 (.token .literal 'x' 8 (.ended 9))) := by
    rw [htokens]
    exact .cons (.cons (.cons (.cons (.cons (.cons .nil)))))
  rcases reads_append_iff.1 hreads with ⟨ts, hbefore, hinside⟩
  rcases read_class_exact hbefore with ⟨hok, hranges, -, -⟩
  have hto : ReadsTo ts _ 7 (.token .literal 'x' 8 (.ended 9)) := ⟨_, ⟨.classEnd, ']'⟩, rfl, hinside⟩
  have hclass : Class [⟨.negate, '^'⟩, ⟨.classEnd, ']'⟩, ⟨.literal, 'a'⟩, ⟨.range, '-'⟩, ⟨.literal, 'c'⟩,
      ⟨.classEnd, ']'⟩] ⟨true, [.single ']', .range 'a' 'c']⟩ :=
    .negated rfl (.bracket rfl (.range (by decide) rfl (by decide) (.close rfl)))
  refine ⟨ts, ⟨_, 7, _⟩, hbefore, (hok _).2 ⟨_, _, hto, hclass, rfl⟩, rfl, fun q => ?_⟩
  refine ((hranges _ _ _ hto.reads hclass).2 q).trans ?_
  have hbracket : (Item.single ']').toRange.Covers q ↔ q = 93 := Range.covers_point_iff
  have hletters : (Item.range 'a' 'c').toRange.Covers q ↔ 97 ≤ q ∧ q ≤ 99 := Iff.rfl
  simp [Listing.Covers, hbracket, hletters]

end CharacterClass

end MaximalMunch
