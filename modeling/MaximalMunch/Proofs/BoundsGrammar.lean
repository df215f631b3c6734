import MaximalMunch.Pattern.Bounds
import MaximalMunch.Proofs.TokenWord

/-!
# The grammar of bounds

Between the braces of a repetition stand a run of digits, and perhaps a comma with another run. Either run may
be empty.

- `Bounds.numberFrom`                   : the number that digits make
- `Bounds.Specifier`, `Specifier.Valid` : the two runs of digits, and when they make bounds
- `Bounds.Written`                      : how a specifier is written
- `Bounds.read_iff`                     : reading accepts just the valid specifiers
- `Bounds.Written.unique`               : which can be read in one way only
-/

namespace MaximalMunch

namespace Bounds

open Tokens

/-- The number that digits make behind `n`, if there are any. -/
def numberFrom (n : Option Nat) (cs : List Char) : Option Nat :=
  cs.foldl (fun n c => some (n.getD 0 * 10 + digitValue c)) n

/-- A number that fits a word, if there is one. -/
def Fits (n : Option Nat) : Prop := ∀ k, n = some k → k < Word.limit

/-- The runs of digits before and behind the comma, if there is a comma. -/
structure Specifier where
  first : List Char
  second : Option (List Char)
  deriving DecidableEq

namespace Specifier

def min (s : Specifier) : Nat := (numberFrom none s.first).getD 0

def max (s : Specifier) : Option Nat :=
  match s.second with
  | none => some s.min
  | some cs => numberFrom none cs

/-- The numbers fit a word, and they are in order. -/
structure Valid (s : Specifier) : Prop where
  min_lt : s.min < Word.limit
  max_fits : Fits s.max
  le_max : ∀ m, s.max = some m → s.min ≤ m

end Specifier

/-- A run of digits. -/
def digits (cs : List Char) : List Token := cs.map (Token.mk .digit)

/-- A specifier from behind its opening brace. -/
inductive Written : List Token → Specifier → Prop where
  | single {cs : List Char} {brace : Token} :
      brace.kind = .repeatEnd → Written (digits cs ++ [brace]) ⟨cs, none⟩
  | both {cs ds : List Char} {comma brace : Token} :
      comma.kind = .comma → brace.kind = .repeatEnd →
        Written (digits cs ++ comma :: (digits ds ++ [brace])) ⟨cs, some ds⟩

/-! ## Numbers -/

variable {ts rest : Tokens} {n m : Option Nat} {cs cs' : List Char} {u u' v v' w : List Token}

/-- More digits make no smaller number. -/
theorem le_numberFrom (k : Nat) (cs : List Char) : ∃ m, numberFrom (some k) cs = some m ∧ k ≤ m := by
  induction cs generalizing k with
  | nil => exact ⟨k, rfl, Nat.le_refl k⟩
  | cons c cs ih =>
      rcases ih (k * 10 + digitValue c) with ⟨m, hm, hle⟩
      exact ⟨m, hm, by omega⟩

theorem number_of_ne (h : ts.kind? ≠ some .digit) : number n ts = .ok (n, ts) := by
  unfold number
  split
  · exact absurd rfl h
  · rfl

theorem number_written (h : number n ts = .ok (m, rest)) (hn : Fits n) :
    ∃ cs, Reads ts (digits cs) rest ∧ rest.kind? ≠ some .digit ∧ m = numberFrom n cs ∧ Fits m := by
  fun_induction number n ts with
  | case1 n c p ts k hk ih =>
      rcases Word.ofNat?_eq_some_iff.1 hk with ⟨hlt, rfl⟩
      have hfits : Fits (some (n.getD 0 * 10 + digitValue c)) := by
        rintro k hk
        obtain rfl := Option.some.inj hk
        exact hlt
      rcases ih h hfits with ⟨cs, hreads, hrest, hm, hmfits⟩
      exact ⟨c :: cs, .cons hreads, hrest, hm, hmfits⟩
  | case2 => exact absurd h (by simp)
  | case3 n ts hnot =>
      obtain ⟨rfl, rfl⟩ := by simpa using h
      refine ⟨[], .nil, fun hkind => ?_, rfl, hn⟩
      rcases kind?_eq_some_iff.1 hkind with ⟨c, p, rest, rfl⟩
      exact hnot c p rest rfl

theorem number_eq_ok (hreads : Reads ts (digits cs) rest) (hrest : rest.kind? ≠ some .digit)
    (hfits : Fits (numberFrom n cs)) : number n ts = .ok (numberFrom n cs, rest) := by
  induction cs generalizing n ts with
  | nil =>
      obtain rfl := reads_nil_iff.1 hreads
      exact number_of_ne hrest
  | cons c cs ih =>
      rcases reads_cons_iff.1 hreads with ⟨p, ts', rfl, hreads'⟩
      -- The number so far is no larger than the whole one, so it fits.
      rcases le_numberFrom (n.getD 0 * 10 + digitValue c) cs with ⟨m, hm, hle⟩
      have hlt : n.getD 0 * 10 + digitValue c < Word.limit := Nat.lt_of_le_of_lt hle (hfits m hm)
      rw [number, Word.ofNat?_eq_some_iff.2 ⟨hlt, rfl⟩]
      exact ih hreads' hfits

/-! ## Whole specifiers -/

theorem fits_none : Fits none := by
  intro k hk
  exact absurd hk (by simp)

theorem fits_iff : Fits n ↔ n.getD 0 < Word.limit := by
  cases n <;> simp [Fits, Word.limit]

theorem close_written {min : Nat} {max : Option Nat} {b : Bounds} (h : close min max ts = .ok b) :
    ∃ brace : Token, brace.kind = .repeatEnd ∧ Reads ts [brace] b.rest ∧ b.min = min ∧ b.max = max := by
  unfold close at h
  split at h
  · obtain rfl := by simpa using h
    exact ⟨_, rfl, .cons .nil, rfl, rfl⟩
  · exact absurd h (by simp)
  · exact absurd h (by simp)

theorem close_eq_ok {min : Nat} {max : Option Nat} {brace : Token} (hbrace : brace.kind = .repeatEnd)
    (hreads : Reads ts [brace] rest) : close min max ts = .ok ⟨min, max, rest⟩ := by
  rcases reads_cons_iff.1 hreads with ⟨p, ts', rfl, hnil⟩
  obtain rfl := reads_nil_iff.1 hnil
  rw [hbrace, close]

theorem closeOrdered_eq_ok_iff {min : Nat} {max : Option Nat} {b : Bounds} :
    closeOrdered min max ts = .ok b ↔ close min max ts = .ok b ∧ ∀ m, max = some m → min ≤ m := by
  have hany : max.any (· < min) = true ↔ ¬ ∀ m, max = some m → min ≤ m := by
    cases max <;> simp
  unfold closeOrdered
  split
  · simp [close]
  · split
    · rename_i hlt
      simp [hany.1 hlt]
    · rename_i hle
      rw [hany, Classical.not_not] at hle
      exact ⟨fun h => ⟨h, hle⟩, And.left⟩

theorem read_written {b : Bounds} (h : read ts = .ok b) :
    ∃ w s, Reads ts w b.rest ∧ Written w s ∧ s.Valid ∧ b.min = s.min ∧ b.max = s.max := by
  unfold read at h
  split at h
  · exact absurd h (by simp)
  · rename_i min c p rest hmin
    rcases number_written hmin fits_none with ⟨cs, hcs, -, rfl, hfits⟩
    split at h
    · exact absurd h (by simp)
    · rename_i max ts' hmax
      rcases number_written hmax fits_none with ⟨ds, hds, -, rfl, hfits'⟩
      rcases closeOrdered_eq_ok_iff.1 h with ⟨hclose, hle⟩
      rcases close_written hclose with ⟨brace, hbrace, hreads, hbmin, hbmax⟩
      exact ⟨_, ⟨cs, some ds⟩, hcs.append (.cons (hds.append hreads)), .both rfl hbrace,
        ⟨fits_iff.1 hfits, hfits', hle⟩, hbmin, hbmax⟩
  · rename_i min ts' hnot hmin
    rcases number_written hmin fits_none with ⟨cs, hcs, -, rfl, hfits⟩
    rcases close_written h with ⟨brace, hbrace, hreads, hbmin, hbmax⟩
    refine ⟨_, ⟨cs, none⟩, hcs.append hreads, .single hbrace, ⟨fits_iff.1 hfits, ?_, ?_⟩, hbmin, hbmax⟩
    · rintro m hm
      obtain rfl := Option.some.inj hm
      exact fits_iff.1 hfits
    · rintro m hm
      exact Nat.le_of_eq (Option.some.inj hm)

theorem Written.read_eq_ok {s : Specifier} (hw : Written w s) (hs : s.Valid) (hreads : Reads ts w rest) :
    read ts = .ok ⟨s.min, s.max, rest⟩ := by
  cases hw with
  | @single cs brace hbrace =>
      rcases reads_append_iff.1 hreads with ⟨mid, hcs, hmid⟩
      have hkind : mid.kind? = some .repeatEnd :=
        (hmid.begins_iff (by simp)).1 (begins_cons_iff.2 hbrace)
      have hnumber := number_eq_ok (n := none) hcs (by simp [hkind]) (fits_iff.2 hs.min_lt)
      rw [read, hnumber]
      -- There is no comma, since the brace follows.
      split
      · rename_i heq
        exact absurd heq (by simp)
      · rename_i heq
        obtain ⟨-, rfl⟩ := by simpa using heq
        exact absurd hkind (by simp [kind?])
      · rename_i heq
        obtain ⟨rfl, rfl⟩ := by simpa using heq
        exact close_eq_ok hbrace hmid
  | @both cs ds comma brace hcomma hbrace =>
      rcases reads_append_iff.1 hreads with ⟨mid, hcs, hmid⟩
      rcases reads_cons_iff.1 hmid with ⟨p, ts', rfl, hbehind⟩
      rcases reads_append_iff.1 hbehind with ⟨mid, hds, hclose⟩
      have hkind : mid.kind? = some .repeatEnd :=
        (hclose.begins_iff (by simp)).1 (begins_cons_iff.2 hbrace)
      rw [hcomma] at hcs
      have hfirst := number_eq_ok (n := none) hcs (by simp [kind?]) (fits_iff.2 hs.min_lt)
      have hsecond := number_eq_ok (n := none) hds (by simp [hkind]) hs.max_fits
      rw [read, hfirst]
      simp only [hsecond]
      exact closeOrdered_eq_ok_iff.2 ⟨close_eq_ok hbrace hclose, hs.le_max⟩

/-- Reading bounds takes the tokens of just one valid specifier. -/
theorem read_iff {b : Bounds} :
    read ts = .ok b ↔
      ∃ w s, Reads ts w b.rest ∧ Written w s ∧ s.Valid ∧ b.min = s.min ∧ b.max = s.max := by
  constructor
  · exact read_written
  · rintro ⟨w, s, hreads, hw, hs, hmin, hmax⟩
    rw [hw.read_eq_ok hs hreads, ← hmin, ← hmax]

/-! ## Uniqueness -/

/-- A run of digits ends at the first token that is no digit. -/
theorem digits_unique {t t' : Token} (ht : t.kind ≠ .digit) (ht' : t'.kind ≠ .digit)
    (heq : digits cs ++ t :: v = digits cs' ++ t' :: v') : cs = cs' ∧ t = t' ∧ v = v' := by
  induction cs generalizing cs' with
  | nil =>
      cases cs' with
      | nil =>
          simpa [digits] using heq
      | cons c' cs' =>
          obtain ⟨rfl, -⟩ := List.cons.inj heq
          exact absurd rfl ht
  | cons c cs ih =>
      cases cs' with
      | nil =>
          obtain ⟨rfl, -⟩ := List.cons.inj heq
          exact absurd rfl ht'
      | cons c' cs' =>
          obtain ⟨hc, htail⟩ := List.cons.inj heq
          obtain ⟨rfl, hrest⟩ := ih htail
          exact ⟨by rw [(Token.mk.inj hc).2], hrest⟩

theorem Written.unique {s s' : Specifier} (h : Written u s) (h' : Written u' s')
    (heq : u ++ v = u' ++ v') : u = u' ∧ s = s' := by
  cases h with
  | single hbrace =>
      cases h' with
      | single hbrace' =>
          simp only [List.append_assoc, List.cons_append, List.nil_append] at heq
          obtain ⟨rfl, rfl, -⟩ := digits_unique (by simp [hbrace]) (by simp [hbrace']) heq
          exact ⟨rfl, rfl⟩
      | both hcomma' hbrace' =>
          simp only [List.append_assoc, List.cons_append, List.nil_append] at heq
          obtain ⟨-, rfl, -⟩ := digits_unique (by simp [hbrace]) (by simp [hcomma']) heq
          exact absurd (hbrace.symm.trans hcomma') (by simp)
  | both hcomma hbrace =>
      cases h' with
      | single hbrace' =>
          simp only [List.append_assoc, List.cons_append, List.nil_append] at heq
          obtain ⟨-, rfl, -⟩ := digits_unique (by simp [hcomma]) (by simp [hbrace']) heq
          exact absurd (hcomma.symm.trans hbrace') (by simp)
      | both hcomma' hbrace' =>
          simp only [List.append_assoc, List.cons_append, List.nil_append] at heq
          obtain ⟨rfl, rfl, htail⟩ := digits_unique (by simp [hcomma]) (by simp [hcomma']) heq
          obtain ⟨rfl, rfl, -⟩ := digits_unique (by simp [hbrace]) (by simp [hbrace']) htail
          exact ⟨rfl, rfl⟩

end Bounds

end MaximalMunch
