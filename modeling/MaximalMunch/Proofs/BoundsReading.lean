import MaximalMunch.Proofs.BoundsGrammar
import MaximalMunch.Proofs.TokenPosition

/-!
# Reading bounds

What follows the opening brace of a repetition is read as bounds if it is written like them, and the bounds are the
decimal numbers that stand there. Otherwise the runs of digits are read as far as they go, and reading fails at the
digit that makes a number too large, or at the token behind the runs.

- `Bounds.decimal`           : the number that a run of digits stands for
- `Bounds.Denotes`           : what bounds are written like, and which these are
- `Bounds.read_eq_ok_iff`    : reading accepts just this
- `Bounds.Begun`             : the runs of digits that have been read
- `Bounds.Breaks`            : why the bounds end behind them, and the error
- `Bounds.read_eq_error_iff` : reading fails just like this
- `Bounds.read_bounds_exact` : all this behind any tokens of a pattern, by the position
-/

namespace MaximalMunch

namespace Bounds

open Tokens

variable {ts rest : Tokens} {n : Option Nat} {cs ds : List Char} {c : Char} {w : List Token}
  {s : Specifier} {e : SyntaxError}

/-! ## Decimal numbers -/

/-- The number that digits stand for, zero if there are none. -/
def decimal (cs : List Char) : Nat := Nat.ofDigitChars 10 cs 0

theorem getD_numberFrom (n : Option Nat) (cs : List Char) :
    (numberFrom n cs).getD 0 = Nat.ofDigitChars 10 cs (n.getD 0) := by
  induction cs generalizing n with
  | nil => exact Nat.ofDigitChars_nil.symm
  | cons c cs ih =>
      rw [Nat.ofDigitChars_cons, Nat.mul_comm 10]
      exact ih _

theorem numberFrom_none_of_ne_nil (h : cs ≠ []) : numberFrom none cs = some (decimal cs) := by
  obtain ⟨c, cs, rfl⟩ := List.exists_cons_of_ne_nil h
  rcases le_numberFrom (0 * 10 + digitValue c) cs with ⟨m, hm, -⟩
  have hnumber : numberFrom none (c :: cs) = some m := hm
  have hvalue := getD_numberFrom none (c :: cs)
  rw [hnumber] at hvalue ⊢
  exact congrArg some hvalue

theorem fits_numberFrom_iff : Fits (numberFrom none cs) ↔ decimal cs < Word.limit := by
  rw [fits_iff, getD_numberFrom]
  rfl

theorem Specifier.min_eq (s : Specifier) : s.min = decimal s.first := getD_numberFrom none s.first

theorem Specifier.max_of_none : Specifier.max ⟨cs, none⟩ = some (decimal cs) :=
  congrArg some (Specifier.min_eq ⟨cs, none⟩)

theorem Specifier.max_of_nil : Specifier.max ⟨cs, some []⟩ = none := rfl

theorem Specifier.max_of_ne_nil (h : ds ≠ []) : Specifier.max ⟨cs, some ds⟩ = some (decimal ds) :=
  numberFrom_none_of_ne_nil h

theorem Specifier.valid_iff :
    s.Valid ↔ decimal s.first < Word.limit ∧
      ∀ m, s.max = some m → m < Word.limit ∧ decimal s.first ≤ m := by
  rw [← s.min_eq]
  constructor
  · intro h
    exact ⟨h.min_lt, fun m hm => ⟨h.max_fits m hm, h.le_max m hm⟩⟩
  · rintro ⟨hlt, hmax⟩
    exact ⟨hlt, fun m hm => (hmax m hm).1, fun m hm => (hmax m hm).2⟩

/-- The numbers of all runs fit a word. -/
def Specifier.RunsFit (s : Specifier) : Prop :=
  decimal s.first < Word.limit ∧ ∀ ds, s.second = some ds → decimal ds < Word.limit

/-- There is a second number, below the first one. -/
def Specifier.Disordered (s : Specifier) : Prop :=
  ∃ ds, s.second = some ds ∧ ds ≠ [] ∧ decimal ds < decimal s.first

/-- One more digit of the last run. -/
def Specifier.push (s : Specifier) (c : Char) : Specifier :=
  match s.second with
  | none => { s with first := s.first ++ [c] }
  | some ds => { s with second := some (ds ++ [c]) }

theorem Specifier.any_max_iff (s : Specifier) : s.max.any (· < s.min) = true ↔ s.Disordered := by
  rw [s.min_eq]
  rcases s with ⟨cs, second⟩
  cases second with
  | none => simp [Disordered, max_of_none]
  | some ds =>
      by_cases hds : ds = []
      · simp [Disordered, hds, max_of_nil]
      · simp [Disordered, hds, max_of_ne_nil]

/-! ## What is read -/

/-- Bounds from behind their opening brace, with the least and the greatest number. A missing number is zero at the
first place, and at the second one it means that there is no greatest number. -/
inductive Denotes : List Token → Nat → Option Nat → Prop where
  | exactly {cs : List Char} {brace : Token} :
      brace.kind = .repeatEnd → decimal cs < Word.limit →
        Denotes (digits cs ++ [brace]) (decimal cs) (some (decimal cs))
  | atLeast {cs : List Char} {comma brace : Token} :
      comma.kind = .comma → brace.kind = .repeatEnd → decimal cs < Word.limit →
        Denotes (digits cs ++ [comma, brace]) (decimal cs) none
  | between {cs ds : List Char} {comma brace : Token} :
      comma.kind = .comma → brace.kind = .repeatEnd → ds ≠ [] → decimal ds < Word.limit →
        decimal cs ≤ decimal ds →
          Denotes (digits cs ++ comma :: (digits ds ++ [brace])) (decimal cs) (some (decimal ds))

theorem denotes_iff {min : Nat} {max : Option Nat} :
    Denotes w min max ↔ ∃ s : Specifier, Written w s ∧ s.Valid ∧ min = s.min ∧ max = s.max := by
  simp only [Specifier.valid_iff, Specifier.min_eq]
  constructor
  · intro h
    cases h with
    | @exactly cs brace hbrace hlt =>
        exact ⟨⟨cs, none⟩, .single hbrace, by simpa [Specifier.max_of_none] using hlt, rfl,
          Specifier.max_of_none.symm⟩
    | @atLeast cs comma brace hcomma hbrace hlt =>
        have hw : Written (digits cs ++ comma :: (digits [] ++ [brace])) ⟨cs, some []⟩ := .both hcomma hbrace
        exact ⟨_, hw, by simpa [Specifier.max_of_nil] using hlt, rfl, Specifier.max_of_nil.symm⟩
    | @between cs ds comma brace hcomma hbrace hds hlt hle =>
        have hmax : Specifier.max ⟨cs, some ds⟩ = some (decimal ds) := Specifier.max_of_ne_nil hds
        refine ⟨⟨cs, some ds⟩, .both hcomma hbrace, ⟨Nat.lt_of_le_of_lt hle hlt, ?_⟩, rfl, hmax.symm⟩
        simpa [hmax] using ⟨hlt, hle⟩
  · rintro ⟨s, hw, ⟨hlt, hs⟩, rfl, rfl⟩
    cases hw with
    | @single cs brace hbrace =>
        rw [Specifier.max_of_none]
        exact .exactly hbrace hlt
    | @both cs ds comma brace hcomma hbrace =>
        by_cases hds : ds = []
        · subst hds
          exact .atLeast hcomma hbrace hlt
        · have hmax : Specifier.max ⟨cs, some ds⟩ = some (decimal ds) := Specifier.max_of_ne_nil hds
          rw [hmax]
          exact .between hcomma hbrace hds (hs _ hmax).1 (hs _ hmax).2

/-- Reading accepts just what denotes bounds. -/
theorem read_eq_ok_iff {b : Bounds} :
    read ts = .ok b ↔ ∃ w, Reads ts w b.rest ∧ Denotes w b.min b.max := by
  simp only [read_iff, denotes_iff, exists_and_left]

/-! ## Where reading fails -/

/-- What has been read from behind the opening brace: a run of digits, or two of them with a comma between. -/
inductive Begun : List Token → Specifier → Prop where
  | first {cs : List Char} : Begun (digits cs) ⟨cs, none⟩
  | second {cs ds : List Char} {comma : Token} :
      comma.kind = .comma → Begun (digits cs ++ comma :: digits ds) ⟨cs, some ds⟩

/-- The last run ends in front of `rest`, and there is no comma that another one would follow. -/
structure Ends (s : Specifier) (rest : Tokens) : Prop where
  no_digit : rest.kind? ≠ some .digit
  no_comma : s.second = none → rest.kind? ≠ some .comma

/-- `Breaks s rest e`: the runs `s` fit, and `rest` behind them does not make them bounds. -/
inductive Breaks (s : Specifier) : Tokens → SyntaxError → Prop where
  /-- The next digit makes a number too large. -/
  | overflow {c : Char} {p : Nat} {rest : Tokens} :
      s.RunsFit → ¬ (s.push c).RunsFit → Breaks s (.token .digit c p rest) ⟨.invalidRepeat, p⟩
  /-- What follows is no token. -/
  | failed {p : Nat} : s.RunsFit → Breaks s (.failed p) ⟨.unrecognizedCharacter, p⟩
  /-- The numbers are out of order, which is found with the token behind them. -/
  | disordered {rest : Tokens} :
      s.RunsFit → Ends s rest → (∀ p, rest ≠ .failed p) → s.Disordered →
        Breaks s rest ⟨.invalidRepeat, rest.position⟩
  /-- There is no closing brace. -/
  | unfinished {rest : Tokens} :
      s.RunsFit → Ends s rest → (∀ p, rest ≠ .failed p) → ¬ s.Disordered →
        rest.kind? ≠ some .repeatEnd → Breaks s rest ⟨.unfinishedRepeat, rest.position⟩

/-- A run of digits is too large from one of its digits on. -/
theorem number_eq_error_iff (hn : Fits n) :
    number n ts = .error e ↔
      ∃ cs c p rest, Reads ts (digits cs) (.token .digit c p rest) ∧ Fits (numberFrom n cs) ∧
        ¬ Fits (numberFrom n (cs ++ [c])) ∧ e = ⟨.invalidRepeat, p⟩ := by
  constructor
  · intro h
    fun_induction number n ts with
    | case1 n c p ts k hk ih =>
        rcases Word.ofNat?_eq_some_iff.1 hk with ⟨hlt, rfl⟩
        rcases ih (fits_iff.2 hlt) h with ⟨cs, c', p', rest, hcs, hfits, hnot, he⟩
        exact ⟨c :: cs, c', p', rest, .cons hcs, hfits, hnot, he⟩
    | case2 n c p ts hnone =>
        have hge := Word.ofNat?_eq_none_iff.1 hnone
        obtain rfl : _ = e := Except.error.inj h
        exact ⟨[], c, p, ts, .nil, hn, fun hfits => absurd (hfits _ rfl) (Nat.not_lt.2 hge), rfl⟩
    | case3 => exact absurd h (by simp)
  · rintro ⟨cs, c, p, rest, hcs, hfits, hnot, rfl⟩
    induction cs generalizing n ts with
    | nil =>
        obtain rfl := reads_nil_iff.1 hcs
        have hge : Word.limit ≤ n.getD 0 * 10 + digitValue c := by
          refine Nat.not_lt.1 fun hlt => hnot (fits_iff.2 ?_)
          simpa [numberFrom] using hlt
        rw [number, Word.ofNat?_eq_none_iff.2 hge]
    | cons x cs ih =>
        rcases reads_cons_iff.1 hcs with ⟨q, ts', rfl, hcs'⟩
        -- The number so far is no larger than the one that still fits.
        rcases le_numberFrom (n.getD 0 * 10 + digitValue x) cs with ⟨m, hm, hle⟩
        have hlt : n.getD 0 * 10 + digitValue x < Word.limit := Nat.lt_of_le_of_lt hle (hfits m hm)
        rw [number, Word.ofNat?_eq_some_iff.2 ⟨hlt, rfl⟩]
        exact ih (fits_iff.2 hlt) hcs' hfits hnot

theorem Specifier.runsFit_first_iff : RunsFit ⟨cs, none⟩ ↔ decimal cs < Word.limit := by
  simp [RunsFit]

theorem Specifier.runsFit_second_iff :
    RunsFit ⟨cs, some ds⟩ ↔ decimal cs < Word.limit ∧ decimal ds < Word.limit := by
  simp [RunsFit]

theorem close_eq_closeOrdered (m : Nat) (ts : Tokens) : close m (some m) ts = closeOrdered m (some m) ts := by
  unfold closeOrdered
  split <;> simp [close]

/-- Behind the runs the numbers are compared, and the closing brace is read. -/
theorem read_eq_closeOrdered (hw : Reads ts w rest) (hs : Begun w s) (hfit : s.RunsFit)
    (hends : Ends s rest) : read ts = closeOrdered s.min s.max rest := by
  cases hs with
  | @first cs =>
      have hnumber := number_eq_ok hw hends.no_digit (fits_numberFrom_iff.2 hfit.1)
      rw [read, hnumber]
      -- No comma follows, so this is a single number.
      split
      · rename_i heq
        exact absurd heq (by simp)
      · rename_i heq
        obtain ⟨-, rfl⟩ := by simpa using heq
        exact absurd rfl (hends.no_comma rfl)
      · rename_i heq
        obtain ⟨rfl, rfl⟩ := by simpa using heq
        exact close_eq_closeOrdered _ _
  | @second cs ds comma hcomma =>
      rcases reads_append_iff.1 hw with ⟨mid, hcs, hmid⟩
      rcases reads_cons_iff.1 hmid with ⟨p, ts', rfl, hds⟩
      rw [hcomma] at hcs
      have hfirst := number_eq_ok (n := none) hcs (by simp [kind?]) (fits_numberFrom_iff.2 hfit.1)
      have hsecond := number_eq_ok hds hends.no_digit (fits_numberFrom_iff.2 (hfit.2 ds rfl))
      rw [read, hfirst]
      simp only [hsecond]
      rfl

/-- Reading stops at the digit that makes a number too large. -/
theorem read_overflow {p : Nat} (hw : Reads ts w (.token .digit c p rest)) (hs : Begun w s)
    (hfit : s.RunsFit) (hnot : ¬ (s.push c).RunsFit) : read ts = .error ⟨.invalidRepeat, p⟩ := by
  cases hs with
  | @first cs =>
      have hnumber : number none ts = .error ⟨.invalidRepeat, p⟩ :=
        (number_eq_error_iff fits_none).2 ⟨cs, c, p, rest, hw, fits_numberFrom_iff.2 hfit.1,
          fun hfits => hnot (Specifier.runsFit_first_iff.2 (fits_numberFrom_iff.1 hfits)), rfl⟩
      rw [read, hnumber]
  | @second cs ds comma hcomma =>
      rcases reads_append_iff.1 hw with ⟨mid, hcs, hmid⟩
      rcases reads_cons_iff.1 hmid with ⟨q, ts', rfl, hds⟩
      rw [hcomma] at hcs
      rcases Specifier.runsFit_second_iff.1 hfit with ⟨hlt, hlt'⟩
      have hfirst := number_eq_ok (n := none) hcs (by simp [kind?]) (fits_numberFrom_iff.2 hlt)
      have hsecond : number none ts' = .error ⟨.invalidRepeat, p⟩ :=
        (number_eq_error_iff fits_none).2 ⟨ds, c, p, rest, hds, fits_numberFrom_iff.2 hlt',
          fun hfits => hnot (Specifier.runsFit_second_iff.2 ⟨hlt, fits_numberFrom_iff.1 hfits⟩), rfl⟩
      rw [read, hfirst]
      simp only [hsecond]

theorem read_of_breaks (hw : Reads ts w rest) (hs : Begun w s) (hbreaks : Breaks s rest e) :
    read ts = .error e := by
  cases hbreaks with
  | overflow hfit hnot =>
      exact read_overflow hw hs hfit hnot
  | failed hfit =>
      rw [read_eq_closeOrdered hw hs hfit ⟨by simp [kind?], by simp [kind?]⟩]
      rfl
  | disordered hfit hends htoken hdisordered =>
      rw [read_eq_closeOrdered hw hs hfit hends, closeOrdered]
      · rw [if_pos (s.any_max_iff.2 hdisordered)]
      · exact htoken
  | unfinished hfit hends htoken hordered hbrace =>
      rw [read_eq_closeOrdered hw hs hfit hends, closeOrdered]
      · rw [if_neg (mt s.any_max_iff.1 hordered)]
        unfold close
        split
        · exact absurd rfl hbrace
        · exact absurd rfl (htoken _)
        · rfl
      · exact htoken

/-- Behind whole runs there are three reasons left to fail. -/
theorem breaks_of_closeOrdered (hfit : s.RunsFit) (hends : Ends s rest)
    (h : closeOrdered s.min s.max rest = .error e) : Breaks s rest e := by
  unfold closeOrdered at h
  split at h
  · obtain rfl := by simpa using h
    exact .failed hfit
  · rename_i htoken
    split at h
    · rename_i hlt
      obtain rfl := by simpa using h
      exact .disordered hfit hends htoken (s.any_max_iff.1 hlt)
    · rename_i hle
      unfold close at h
      split at h
      · exact absurd h (by simp)
      · exact absurd rfl (htoken _)
      · rename_i hbrace _
        obtain rfl := by simpa using h
        refine .unfinished hfit hends htoken (mt s.any_max_iff.2 hle) fun hkind => ?_
        rcases kind?_eq_some_iff.1 hkind with ⟨c, p, ts', rfl⟩
        exact hbrace _ _ _ rfl

/-- Either a run is too large, or all runs are whole. -/
theorem breaks_of_read (h : read ts = .error e) :
    ∃ w s rest, Reads ts w rest ∧ Begun w s ∧ Breaks s rest e := by
  unfold read at h
  split at h
  · rename_i e' hfirst
    obtain rfl : e' = e := by simpa using h
    rcases (number_eq_error_iff fits_none).1 hfirst with ⟨cs, c, p, rest, hcs, hfits, hnot, rfl⟩
    refine ⟨_, ⟨cs, none⟩, _, hcs, .first, .overflow ?_ ?_⟩
    · exact Specifier.runsFit_first_iff.2 (fits_numberFrom_iff.1 hfits)
    · exact fun hfit => hnot (fits_numberFrom_iff.2 (Specifier.runsFit_first_iff.1 hfit))
  · rename_i min c p rest hmin
    rcases number_written hmin fits_none with ⟨cs, hcs, -, rfl, hfits⟩
    have hlt := fits_numberFrom_iff.1 hfits
    split at h
    · rename_i e' hsecond
      obtain rfl : e' = e := by simpa using h
      rcases (number_eq_error_iff fits_none).1 hsecond with ⟨ds, c', p', rest', hds, hfits', hnot, rfl⟩
      refine ⟨_, ⟨cs, some ds⟩, _, hcs.append (.cons hds), .second rfl, .overflow ?_ ?_⟩
      · exact Specifier.runsFit_second_iff.2 ⟨hlt, fits_numberFrom_iff.1 hfits'⟩
      · exact fun hfit => hnot (fits_numberFrom_iff.2 (Specifier.runsFit_second_iff.1 hfit).2)
    · rename_i max ts' hmax
      rcases number_written hmax fits_none with ⟨ds, hds, hdigit, rfl, hfits'⟩
      refine ⟨_, ⟨cs, some ds⟩, _, hcs.append (.cons hds), .second rfl, breaks_of_closeOrdered ?_ ?_ h⟩
      · exact Specifier.runsFit_second_iff.2 ⟨hlt, fits_numberFrom_iff.1 hfits'⟩
      · exact ⟨hdigit, by simp⟩
  · rename_i min ts' hnot hmin
    rcases number_written hmin fits_none with ⟨cs, hcs, hdigit, rfl, hfits⟩
    rw [close_eq_closeOrdered] at h
    refine ⟨_, ⟨cs, none⟩, _, hcs, .first, breaks_of_closeOrdered ?_ ⟨hdigit, fun _ hkind => ?_⟩ h⟩
    · exact Specifier.runsFit_first_iff.2 (fits_numberFrom_iff.1 hfits)
    · rcases kind?_eq_some_iff.1 hkind with ⟨c, p, ts'', rfl⟩
      exact hnot _ _ _ rfl

/-- Reading fails just where what has been read breaks. -/
theorem read_eq_error_iff :
    read ts = .error e ↔ ∃ w s rest, Reads ts w rest ∧ Begun w s ∧ Breaks s rest e := by
  constructor
  · exact breaks_of_read
  · rintro ⟨w, s, rest, hw, hs, hbreaks⟩
    exact read_of_breaks hw hs hbreaks

/-! ## Behind the tokens of a pattern -/

/-- Behind any tokens of a regular expression, bounds are read if the tokens that follow denote them. Otherwise
reading fails just where the runs of digits break. The digits are those of decimal numbers, and all positions count
the characters of the pattern. -/
theorem read_bounds_exact {pattern : String} {before : List Token}
    (h : Reads (Dialect.regex.tokens pattern) before ts) :
    (∀ b, read ts = .ok b ↔ ∃ w, Reads ts w b.rest ∧ Denotes w b.min b.max) ∧
    (∀ e, read ts = .error e ↔ ∃ w s rest, Reads ts w rest ∧ Begun w s ∧ Breaks s rest e) ∧
    ∀ w rest, Reads ts w rest →
      Dialect.regex.Placed pattern rest ∧ ∀ t ∈ w, t.kind = .digit → '0' ≤ t.char ∧ t.char ≤ '9' := by
  refine ⟨fun b => read_eq_ok_iff, fun e => read_eq_error_iff, fun w rest hw => ?_⟩
  have hall := h.append hw
  exact ⟨Dialect.placed_of_reads hall, fun t ht =>
    Dialect.isDigit_of_reads hall t (List.mem_append_right before ht)⟩

/-- For numbers out of order, which are refused behind the closing brace. -/
theorem read_bounds_exact_disordered :
    ∃ ts, Reads (Dialect.regex.tokens "a{12,3}b") [⟨.literal, 'a'⟩, ⟨.repeatBegin, '{'⟩] ts ∧
      read ts = .error ⟨.invalidRepeat, 7⟩ := by
  have htokens : Dialect.regex.tokens "a{12,3}b" =
      .token .literal 'a' 1 (.token .repeatBegin '{' 2 (.token .digit '1' 3 (.token .digit '2' 4
        (.token .comma ',' 5 (.token .digit '3' 6 (.token .repeatEnd '}' 7 (.token .literal 'b' 8
          (.ended 9)))))))) :=
    (Dialect.tokens_eq_reading _ _).trans (by decide)
  have hreads : Reads (Dialect.regex.tokens "a{12,3}b")
      ([⟨.literal, 'a'⟩, ⟨.repeatBegin, '{'⟩] ++ (digits ['1', '2'] ++ ⟨.comma, ','⟩ :: digits ['3']))
      (.token .repeatEnd '}' 7 (.token .literal 'b' 8 (.ended 9))) := by
    rw [htokens]
    exact .cons (.cons (.cons (.cons (.cons (.cons .nil)))))
  rcases reads_append_iff.1 hreads with ⟨ts, hbefore, hinside⟩
  refine ⟨ts, hbefore, ((read_bounds_exact hbefore).2.1 _).2 ⟨_, _, _, hinside, .second rfl, ?_⟩⟩
  have hfit : Specifier.RunsFit ⟨['1', '2'], some ['3']⟩ :=
    Specifier.runsFit_second_iff.2 ⟨by decide, by decide⟩
  exact .disordered hfit ⟨by decide, by decide⟩ (by simp) ⟨['3'], rfl, by decide, by decide⟩

end Bounds

end MaximalMunch
