import MaximalMunch.Pattern.Class
import MaximalMunch.Proofs.Complement
import MaximalMunch.Proofs.TokenWord

/-!
# The grammar of character classes

A class is an optional negation, an optional closing bracket that stands for itself, and items up to the
closing bracket: single characters, and ranges with a range sign inside.

- `CharacterClass.Item`, `Listing`           : what a class lists
- `CharacterClass.Items`, `Body`, `Class`    : how this is written
- `CharacterClass.read_iff`                  : reading accepts just what is written like this
- `CharacterClass.Class.unique`              : and it can be read in one way only
- `CharacterClass.Listing.covers_ranges_iff` : the ranges of a class cover the characters that it contains
-/

namespace MaximalMunch

namespace CharacterClass

open CodePoint Tokens

/-- An item of a class. -/
inductive Item where
  | single (x : Char)
  | range (x y : Char)
  deriving DecidableEq

/-- The code points of an item. -/
def Item.toRange : Item → Range
  | single x => .ofChar x
  | range x y => ⟨ofChar x, ofChar y⟩

/-- The items of a class, and whether it is made of what they leave out. -/
structure Listing where
  negated : Bool
  items : List Item
  deriving DecidableEq

/-- The ranges of a class. -/
def Listing.ranges (l : Listing) : List Range :=
  if l.negated then Range.complement (l.items.map Item.toRange) else l.items.map Item.toRange

/-- Items up to the closing bracket. A token in front of a range sign always begins a range. -/
inductive Items : List Token → List Item → Prop where
  | close {t : Token} : t.kind = .classEnd → Items [t] []
  | single {x : Token} {w : List Token} {is : List Item} :
      x.kind ≠ .classEnd → ¬ Token.Begins w .range → Items w is →
        Items (x :: w) (.single x.char :: is)
  | range {x sign y : Token} {w : List Token} {is : List Item} :
      x.kind ≠ .classEnd → sign.kind = .range → x.char ≤ y.char → Items w is →
        Items (x :: sign :: y :: w) (.range x.char y.char :: is)

/-- Items with a closing bracket in the first place, if there is one. -/
inductive Body : List Token → List Item → Prop where
  | bracket {t : Token} {w : List Token} {is : List Item} :
      t.kind = .classEnd → Items w is → Body (t :: w) (.single t.char :: is)
  | plain {w : List Token} {is : List Item} :
      ¬ Token.Begins w .classEnd → Items w is → Body w is

/-- A class from behind its opening bracket. -/
inductive Class : List Token → Listing → Prop where
  | negated {t : Token} {w : List Token} {is : List Item} :
      t.kind = .negate → Body w is → Class (t :: w) ⟨true, is⟩
  | plain {w : List Token} {is : List Item} :
      ¬ Token.Begins w .negate → Body w is → Class w ⟨false, is⟩

/-! ## Items -/

variable {ts rest : Tokens} {k k' : Token.Kind} {u u' v v' w : List Token} {is is' : List Item}

/-- A token without a range sign behind it stands for its character. -/
theorem items_single {x : Char} {p : Nat} (hk : k ≠ .classEnd) (hnext : ts.kind? ≠ some .range) :
    items (token k x p ts) = (items ts).map (cons (.ofChar x)) := by
  rw [items]
  · exact hk
  all_goals
    intros
    simp_all [kind?]

/-- A token with a range sign behind it begins a range. -/
theorem items_range {x y c : Char} {p p' p'' : Nat} (hk : k ≠ .classEnd) (hle : x ≤ y) :
    items (token k x p (token .range c p' (token k' y p'' ts))) =
      (items ts).map (cons ⟨ofChar x, ofChar y⟩) := by
  rw [items, if_neg (Char.not_lt.2 hle)]
  exact hk

/-- What is none of the three beginnings of a range is not behind the first token of one. -/
theorem kind?_ne_range
    (hrange : ∀ c p k y q rest, ts = token .range c p (token k y q rest) → False)
    (hended : ∀ c p q, ts = token .range c p (ended q) → False)
    (hfailed : ∀ c p q, ts = token .range c p (failed q) → False) : ts.kind? ≠ some .range := by
  intro hkind
  rcases kind?_eq_some_iff.1 hkind with ⟨c, p, rest, rfl⟩
  cases rest with
  | token => exact hrange _ _ _ _ _ _ rfl
  | ended => exact hended _ _ _ rfl
  | failed => exact hfailed _ _ _ rfl

theorem Items.ne_nil (h : Items w is) : w ≠ [] := by
  cases h <;> simp

theorem items_written {c : CharacterClass} (h : items ts = .ok c) :
    ∃ w is, Reads ts w c.rest ∧ Items w is ∧ c.ranges = is.map Item.toRange := by
  fun_induction items ts generalizing c with
  | case1 | case2 | case4 | case6 | case7 => exact absurd h (by simp)
  | case3 =>
      obtain rfl := by simpa using h
      exact ⟨_, _, .cons .nil, .close rfl, rfl⟩
  | case5 k x p c' p' k' y p'' rest hk hle ih =>
      rcases SyntaxError.map_eq_ok_iff.1 h with ⟨d, hd, rfl⟩
      rcases ih hd with ⟨w, is, hreads, hitems, hranges⟩
      refine ⟨_, _, .cons (.cons (.cons hreads)), .range hk rfl (Char.not_lt.1 hle) hitems, ?_⟩
      rw [cons, hranges]
      rfl
  | case8 k x p rest hk hrange hended hfailed ih =>
      rcases SyntaxError.map_eq_ok_iff.1 h with ⟨d, hd, rfl⟩
      rcases ih hd with ⟨w, is, hreads, hitems, hranges⟩
      refine ⟨_, _, .cons hreads, .single hk ?_ hitems, ?_⟩
      · rw [hreads.begins_iff hitems.ne_nil]
        exact kind?_ne_range hrange hended hfailed
      · rw [cons, hranges]
        rfl

theorem Items.items_eq_ok (hitems : Items w is) (hreads : Reads ts w rest) :
    ∃ p, items ts = .ok ⟨is.map Item.toRange, p, rest⟩ := by
  induction hitems generalizing ts with
  | @close t ht =>
      rcases reads_cons_iff.1 hreads with ⟨p, ts', rfl, hrest⟩
      obtain rfl := reads_nil_iff.1 hrest
      exact ⟨p, by rw [ht, items]; rfl⟩
  | @single x w is hx hnext hitems ih =>
      rcases reads_cons_iff.1 hreads with ⟨p, ts', rfl, hrest⟩
      rcases ih hrest with ⟨p', hok⟩
      refine ⟨p', ?_⟩
      rw [items_single hx (mt (hrest.begins_iff hitems.ne_nil).2 hnext), hok]
      rfl
  | @range x sign y w is hx hsign hle hitems ih =>
      rcases reads_cons_iff.1 hreads with ⟨p, ts₁, rfl, hreads₁⟩
      rcases reads_cons_iff.1 hreads₁ with ⟨p₁, ts₂, rfl, hreads₂⟩
      rcases reads_cons_iff.1 hreads₂ with ⟨p₂, ts₃, rfl, hreads₃⟩
      rcases ih hreads₃ with ⟨p', hok⟩
      exact ⟨p', by rw [hsign, items_range hx hle, hok]; rfl⟩

/-! ## A closing bracket in front -/

theorem Body.ne_nil (h : Body w is) : w ≠ [] := by
  cases h with
  | bracket => simp
  | plain _ hitems => exact hitems.ne_nil

theorem leadingBracket_of_ne (h : ts.kind? ≠ some .classEnd) : leadingBracket ts = ([], ts) := by
  unfold leadingBracket
  split
  · exact absurd rfl h
  · rfl

theorem body_written {c : CharacterClass} (h : items (leadingBracket ts).2 = .ok c) :
    ∃ w is, Reads ts w c.rest ∧ Body w is ∧
      (leadingBracket ts).1 ++ c.ranges = is.map Item.toRange := by
  by_cases hkind : ts.kind? = some .classEnd
  · rcases kind?_eq_some_iff.1 hkind with ⟨x, p, ts, rfl⟩
    rcases items_written h with ⟨w, is, hreads, hitems, hranges⟩
    exact ⟨_, _, .cons hreads, .bracket rfl hitems, congrArg (Range.ofChar x :: ·) hranges⟩
  · rw [leadingBracket_of_ne hkind] at h ⊢
    rcases items_written h with ⟨w, is, hreads, hitems, hranges⟩
    exact ⟨w, is, hreads, .plain (mt (hreads.begins_iff hitems.ne_nil).1 hkind) hitems, hranges⟩

theorem Body.items_eq_ok (hbody : Body w is) (hreads : Reads ts w rest) :
    ∃ rs p, items (leadingBracket ts).2 = .ok ⟨rs, p, rest⟩ ∧
      (leadingBracket ts).1 ++ rs = is.map Item.toRange := by
  cases hbody with
  | @bracket t w is ht hitems =>
      rcases reads_cons_iff.1 hreads with ⟨p, ts', rfl, hrest⟩
      rcases hitems.items_eq_ok hrest with ⟨p', hok⟩
      rw [ht]
      exact ⟨_, p', hok, rfl⟩
  | plain hnot hitems =>
      rw [leadingBracket_of_ne (mt (hreads.begins_iff hitems.ne_nil).2 hnot)]
      rcases hitems.items_eq_ok hreads with ⟨p', hok⟩
      exact ⟨_, p', hok, rfl⟩

/-! ## Whole classes -/

theorem negation_of_ne (h : ts.kind? ≠ some .negate) : negation ts = (false, ts) := by
  unfold negation
  split
  · exact absurd rfl h
  · rfl

theorem read_eq (ts : Tokens) :
    read ts = (items (leadingBracket (negation ts).2).2).map fun c =>
      { c with
        ranges :=
          if (negation ts).1 then Range.complement ((leadingBracket (negation ts).2).1 ++ c.ranges)
          else (leadingBracket (negation ts).2).1 ++ c.ranges } := by
  simp only [read]
  split <;> rename_i heq <;> rw [heq] <;> rfl

theorem read_written {c : CharacterClass} (h : read ts = .ok c) :
    ∃ w l, Reads ts w c.rest ∧ Class w l ∧ c.ranges = l.ranges := by
  rw [read_eq] at h
  rcases SyntaxError.map_eq_ok_iff.1 h with ⟨d, hd, rfl⟩
  rcases body_written hd with ⟨w, is, hreads, hbody, hranges⟩
  by_cases hkind : ts.kind? = some .negate
  · rcases kind?_eq_some_iff.1 hkind with ⟨x, p, ts, rfl⟩
    exact ⟨_, _, .cons hreads, .negated rfl hbody, congrArg Range.complement hranges⟩
  · rw [negation_of_ne hkind] at hreads hranges ⊢
    exact ⟨_, _, hreads, .plain (mt (hreads.begins_iff hbody.ne_nil).1 hkind) hbody, hranges⟩

theorem Class.read_eq_ok {l : Listing} (hclass : Class w l) (hreads : Reads ts w rest) :
    ∃ p, read ts = .ok ⟨l.ranges, p, rest⟩ := by
  rw [read_eq]
  cases hclass with
  | @negated t w is ht hbody =>
      rcases reads_cons_iff.1 hreads with ⟨p, ts', rfl, hrest⟩
      rcases hbody.items_eq_ok hrest with ⟨rs, p', hok, hranges⟩
      refine ⟨p', SyntaxError.map_eq_ok_iff.2 ⟨_, by rw [ht]; exact hok, ?_⟩⟩
      rw [ht]
      simp [negation, hranges, Listing.ranges]
  | plain hnot hbody =>
      rw [negation_of_ne (mt (hreads.begins_iff hbody.ne_nil).2 hnot)]
      rcases hbody.items_eq_ok hreads with ⟨rs, p', hok, hranges⟩
      exact ⟨p', SyntaxError.map_eq_ok_iff.2 ⟨_, hok, by simp [hranges, Listing.ranges]⟩⟩

/-- Reading a class takes the tokens of just one class. -/
theorem read_iff {rs : List Range} :
    (∃ p, read ts = .ok ⟨rs, p, rest⟩) ↔ ∃ w l, Reads ts w rest ∧ Class w l ∧ rs = l.ranges := by
  constructor
  · rintro ⟨p, h⟩
    exact read_written h
  · rintro ⟨w, l, hreads, hclass, rfl⟩
    exact hclass.read_eq_ok hreads

/-! ## Uniqueness -/

theorem Items.unique (h : Items u is) (h' : Items u' is') (heq : u ++ v = u' ++ v') :
    u = u' ∧ is = is' := by
  induction h generalizing u' is' with
  | close ht =>
      cases h' with
      | close =>
          obtain ⟨rfl, -⟩ := List.cons.inj heq
          exact ⟨rfl, rfl⟩
      | single hx | range hx =>
          obtain ⟨rfl, -⟩ := List.cons.inj heq
          exact absurd ht hx
  | @single x w is hx hnext hitems ih =>
      cases h' with
      | close ht =>
          obtain ⟨rfl, -⟩ := List.cons.inj heq
          exact absurd ht hx
      | single _ _ hitems' =>
          obtain ⟨rfl, htail⟩ := List.cons.inj heq
          obtain ⟨rfl, rfl⟩ := ih hitems' htail
          exact ⟨rfl, rfl⟩
      | range _ hsign =>
          obtain ⟨-, htail⟩ := List.cons.inj heq
          obtain ⟨t, w, rfl⟩ := List.exists_cons_of_ne_nil hitems.ne_nil
          obtain ⟨rfl, -⟩ := List.cons.inj htail
          exact absurd (begins_cons_iff.2 hsign) hnext
  | @range x sign y w is hx hsign hle hitems ih =>
      cases h' with
      | close ht =>
          obtain ⟨rfl, -⟩ := List.cons.inj heq
          exact absurd ht hx
      | single _ hnext hitems' =>
          obtain ⟨-, htail⟩ := List.cons.inj heq
          obtain ⟨t, w, rfl⟩ := List.exists_cons_of_ne_nil hitems'.ne_nil
          obtain ⟨rfl, -⟩ := List.cons.inj htail
          exact absurd (begins_cons_iff.2 hsign) hnext
      | range _ _ _ hitems' =>
          simp only [List.cons_append, List.cons.injEq] at heq
          obtain ⟨rfl, rfl, rfl, htail⟩ := heq
          obtain ⟨rfl, rfl⟩ := ih hitems' htail
          exact ⟨rfl, rfl⟩

theorem Body.unique (h : Body u is) (h' : Body u' is') (heq : u ++ v = u' ++ v') :
    u = u' ∧ is = is' := by
  have hbegins := begins_congr h.ne_nil h'.ne_nil heq (k := .classEnd)
  cases h with
  | bracket ht hitems =>
      cases h' with
      | bracket _ hitems' =>
          obtain ⟨rfl, htail⟩ := List.cons.inj heq
          obtain ⟨rfl, rfl⟩ := hitems.unique hitems' htail
          exact ⟨rfl, rfl⟩
      | plain hnot =>
          exact absurd (hbegins.1 (begins_cons_iff.2 ht)) hnot
  | plain hnot hitems =>
      cases h' with
      | bracket ht =>
          exact absurd (hbegins.2 (begins_cons_iff.2 ht)) hnot
      | plain _ hitems' =>
          exact hitems.unique hitems' heq

theorem Class.ne_nil {l : Listing} (h : Class w l) : w ≠ [] := by
  cases h with
  | negated => simp
  | plain _ hbody => exact hbody.ne_nil

/-- A text begins with one class at most. -/
theorem Class.unique {l l' : Listing} (h : Class u l) (h' : Class u' l') (heq : u ++ v = u' ++ v') :
    u = u' ∧ l = l' := by
  have hbegins := begins_congr h.ne_nil h'.ne_nil heq (k := .negate)
  cases h with
  | negated ht hbody =>
      cases h' with
      | negated _ hbody' =>
          obtain ⟨rfl, htail⟩ := List.cons.inj heq
          obtain ⟨rfl, rfl⟩ := hbody.unique hbody' htail
          exact ⟨rfl, rfl⟩
      | plain hnot =>
          exact absurd (hbegins.1 (begins_cons_iff.2 ht)) hnot
  | plain hnot hbody =>
      cases h' with
      | negated ht =>
          exact absurd (hbegins.2 (begins_cons_iff.2 ht)) hnot
      | plain _ hbody' =>
          obtain ⟨rfl, rfl⟩ := hbody.unique hbody' heq
          exact ⟨rfl, rfl⟩

/-! ## The characters of a class -/

def Item.Contains : Item → Char → Prop
  | single x, c => c = x
  | range x y, c => x ≤ c ∧ c ≤ y

/-- A negated class contains the characters of the alphabet that its items leave out. -/
def Listing.Contains (l : Listing) (c : Char) : Prop :=
  if l.negated then CharInAlphabet c ∧ ¬ ∃ i ∈ l.items, i.Contains c else ∃ i ∈ l.items, i.Contains c

theorem Item.covers_iff {i : Item} {c : Char} : i.toRange.Covers (ofChar c) ↔ i.Contains c := by
  cases i with
  | single x =>
      exact Range.covers_point_iff.trans ⟨fun h => ofChar_injective h, congrArg ofChar⟩
  | range x y =>
      exact and_congr ofChar_le_iff ofChar_le_iff

theorem Items.inAlphabet (h : Items w is) (hw : ∀ t ∈ w, CharInAlphabet t.char) :
    ∀ i ∈ is, i.toRange.InAlphabet := by
  induction h with
  | close => simp
  | single _ _ _ ih =>
      simp only [List.forall_mem_cons] at hw ⊢
      exact ⟨hw.1.range, ih hw.2⟩
  | range _ _ hle _ ih =>
      simp only [List.forall_mem_cons] at hw ⊢
      exact ⟨⟨ofChar_nonneg _, ofChar_le_iff.2 hle, hw.2.2.1⟩, ih hw.2.2.2⟩

theorem Body.inAlphabet (h : Body w is) (hw : ∀ t ∈ w, CharInAlphabet t.char) :
    ∀ i ∈ is, i.toRange.InAlphabet := by
  cases h with
  | bracket _ hitems =>
      simp only [List.forall_mem_cons] at hw ⊢
      exact ⟨hw.1.range, hitems.inAlphabet hw.2⟩
  | plain _ hitems =>
      exact hitems.inAlphabet hw

theorem Class.inAlphabet {l : Listing} (h : Class w l) (hw : ∀ t ∈ w, CharInAlphabet t.char) :
    ∀ i ∈ l.items, i.toRange.InAlphabet := by
  cases h with
  | negated _ hbody => exact hbody.inAlphabet fun t ht => hw t (List.mem_cons_of_mem _ ht)
  | plain _ hbody => exact hbody.inAlphabet hw

/-- The ranges of a class cover its characters. -/
theorem Listing.covers_ranges_iff {l : Listing} (hl : ∀ i ∈ l.items, i.toRange.InAlphabet) {c : Char} :
    Range.Union l.ranges (ofChar c) ↔ l.Contains c := by
  have hitems : Range.Union (l.items.map Item.toRange) (ofChar c) ↔ ∃ i ∈ l.items, i.Contains c := by
    simp [Range.Union, Item.covers_iff]
  unfold ranges Contains
  split
  · rw [Range.covers_complement_iff (by simpa using hl), hitems, CharInAlphabet]
    simp [ofChar_nonneg]
  · exact hitems

end CharacterClass

end MaximalMunch
