import MaximalMunch.Proofs.ClassReading
import MaximalMunch.Proofs.RegexDescent

/-!
# The first offence

A pattern is refused at the first token that no pattern goes on with, and this depends on the text up to the end of
this token only. A class or a group that is not closed is found at the end of the text. A character that no token
begins with is found where it stands, behind whole tokens.

- `Token.Table.reads_congr`    : tokens of a text, and of other texts that begin like it
- `Token.Table.NoToken`        : texts that do not begin with a token
- `Sited`                      : a failure at a place of a chain, whatever follows
- `CharacterClass.sited_read`, `Bounds.sited_read`, `Regex.sited_parse`, `Glob.sited_parse` : all failures are such
- `Dialect.first_offence`      : all this for texts
-/

namespace MaximalMunch

open CodePoint Tokens

/-! ## Texts that begin alike -/

namespace Token.Table

variable {t : Table} {k : Kind} {c : Char} {p q : Nat} {cs cs' : List Char} {w : List Token} {ts rest : Tokens}

/-- A token is the same in front of another text. -/
theorem reading_congr (h : t.reading p cs = .token k c q ts) (htake : cs'.take (q - p) = cs.take (q - p)) :
    t.reading p cs' = .token k c q (t.reading q (cs'.drop (q - p))) := by
  fun_cases reading t p cs with
  | case1 | case2 | case4 x rest' hnone | case6 x rest' hx hnone =>
      simp_all [reading]
  | case3 x rest' y hy =>
      simp only [reading, hy, Tokens.token.injEq] at h
      obtain ⟨rfl, rfl, rfl, -⟩ := h
      rw [Nat.add_sub_cancel_left] at htake ⊢
      rcases cs' with _ | ⟨_, _ | ⟨_, cs'⟩⟩
      · simp at htake
      · simp at htake
      · obtain ⟨rfl, rfl⟩ := by simpa using htake
        simp only [reading, hy]
        rfl
  | case5 c' rest' hc k' hk =>
      simp only [reading, hk, Tokens.token.injEq] at h
      obtain ⟨rfl, rfl, rfl, -⟩ := h
      rw [Nat.add_sub_cancel_left] at htake ⊢
      rcases cs' with _ | ⟨_, cs'⟩
      · simp at htake
      · obtain rfl := by simpa using htake
        rw [reading]
        · simp only [hk]
          rfl
        · exact hc

/-- Tokens in front of a text are those of each text with the same characters in front. -/
theorem reads_congr (h : Reads (t.reading p cs) w rest) :
    ∃ q, p ≤ q ∧ rest = t.reading q (cs.drop (q - p)) ∧
      ∀ cs', cs'.take (q - p) = cs.take (q - p) →
        Reads (t.reading p cs') w (t.reading q (cs'.drop (q - p))) := by
  induction w generalizing p cs with
  | nil =>
      refine ⟨p, Nat.le_refl p, ?_, fun cs' _ => ?_⟩
      · rw [reads_nil_iff.1 h, Nat.sub_self, List.drop_zero]
      · rw [Nat.sub_self, List.drop_zero]
        exact .nil
  | cons x w ih =>
      rcases reads_cons_iff.1 h with ⟨r, ts, hts, hw⟩
      rcases reading_eq_token hts with ⟨hlt, -, rfl⟩
      rcases ih hw with ⟨q, hle, hrest, hsame⟩
      have hdrop : ∀ cs : List Char, (cs.drop (r - p)).drop (q - r) = cs.drop (q - p) := by
        intro cs
        rw [List.drop_drop]
        congr 1
        omega
      have htake : ∀ cs : List Char, (cs.drop (r - p)).take (q - r) = (cs.take (q - p)).drop (r - p) := by
        intro cs
        rw [List.drop_take]
        congr 1
        omega
      refine ⟨q, Nat.le_trans (Nat.le_of_lt hlt) hle, (hdrop cs) ▸ hrest, fun cs' heq => ?_⟩
      -- The texts are alike up to the end of the first token, and from there on.
      have hfront : cs'.take (r - p) = cs.take (r - p) := by
        have hshort := congrArg (List.take (r - p)) heq
        rwa [List.take_take, List.take_take, Nat.min_eq_left (by omega)] at hshort
      have hbehind := hsame (cs'.drop (r - p)) (by rw [htake, htake, heq])
      rw [hdrop] at hbehind
      rw [reading_congr hts hfront]
      exact .cons hbehind

/-- The text begins with a character outside of the alphabet, or with a backslash and no character that may stand
behind it. -/
def NoToken (t : Table) (cs : List Char) : Prop :=
  ∃ c rest, cs = c :: rest ∧
    (¬ CharInAlphabet c ∨ c = '\\' ∧ ∀ x, rest.head? = some x → x ∉ t.escapes.map Prod.fst)

end Token.Table

theorem Dialect.noToken_of_reading {d : Dialect} {p q : Nat} {cs : List Char}
    (h : d.table.reading p cs = .failed q) : d.table.NoToken cs := by
  fun_cases Token.Table.reading d.table p cs with
  | case1 | case3 x rest y hy | case5 c rest hc k hk =>
      simp_all [Token.Table.reading]
  | case2 =>
      exact ⟨'\\', [], rfl, .inr ⟨rfl, by simp⟩⟩
  | case4 x rest hnone =>
      refine ⟨'\\', x :: rest, rfl, .inr ⟨rfl, ?_⟩⟩
      rintro _ ⟨⟩ hx
      rcases List.mem_map.1 hx with ⟨e, he, hex⟩
      have hsome := (Token.Table.escape?_eq_some_iff d.readable_table).2 ⟨e, he, hex, rfl⟩
      exact absurd (hnone.symm.trans hsome) (by simp)
  | case6 c rest hc hnone =>
      refine ⟨c, rest, rfl, .inl fun halphabet => ?_⟩
      obtain ⟨k, hk⟩ := (d.exists_kind_iff c).2 ⟨halphabet, hc⟩
      exact absurd (hnone.symm.trans hk) (by simp)

/-! ## Failures at a place -/

/-- Errors that are found at the end of the text. -/
def SyntaxError.Kind.AtEnd (k : SyntaxError.Kind) : Prop :=
  k = .unfinishedClass ∨ k = .unfinishedGroup ∨ k = .unfinishedRepeat ∨ k = .invalidRepeat

/-- Errors that are found at a token. -/
def SyntaxError.Kind.AtToken (k : SyntaxError.Kind) : Prop :=
  k = .invalidRange ∨ k = .nestingTooDeep ∨ k = .unfinishedRepeat ∨ k = .invalidRepeat

/-- `Sited f ts e`: the function `f` fails with the error `e` at a place of `ts`. This is where there is no token, or
the end, or a token; and then `f` fails so for all chains that begin like `ts` up to and including this token. -/
inductive Sited {α : Type} (f : Tokens → Except SyntaxError α) (ts : Tokens) : SyntaxError → Prop where
  | failed {w : List Token} {p : Nat} :
      Reads ts w (.failed p) → Sited f ts ⟨.unrecognizedCharacter, p⟩
  | ended {w : List Token} {p : Nat} {kind : SyntaxError.Kind} :
      Reads ts w (.ended p) → kind.AtEnd → Sited f ts ⟨kind, p⟩
  | token {w : List Token} {k : Token.Kind} {c : Char} {p : Nat} {rest : Tokens} {kind : SyntaxError.Kind} :
      Reads ts w (.token k c p rest) → kind.AtToken →
        (∀ ts' rest', Reads ts' w (.token k c p rest') → f ts' = .error ⟨kind, p⟩) → Sited f ts ⟨kind, p⟩

variable {α β : Type} {f : Tokens → Except SyntaxError α} {g : Tokens → Except SyntaxError β} {ts mid rest : Tokens}
  {e : SyntaxError} {w : List Token}

/-- A failure behind some tokens is one of the whole, if it makes the whole fail. -/
theorem Sited.behind (h : Sited g mid e) (hw : Reads ts w mid)
    (hf : ∀ ts' mid', Reads ts' w mid' → g mid' = .error e → f ts' = .error e) : Sited f ts e := by
  cases h with
  | failed hmid => exact .failed (hw.append hmid)
  | ended hmid hkind => exact .ended (hw.append hmid) hkind
  | token hmid hkind hsame =>
      refine .token (hw.append hmid) hkind fun ts' rest' hreads => ?_
      rcases reads_append_iff.1 hreads with ⟨mid', hw', hmid'⟩
      exact hf ts' mid' hw' (hsame mid' rest' hmid')

/-- The end of a class is missing, or one of its ranges is refused at its last token. -/
theorem CharacterClass.sited_read (h : CharacterClass.read ts = .error e) : Sited CharacterClass.read ts e := by
  rcases CharacterClass.read_eq_error_iff.1 h with ⟨w, u, rest, hw, hu, hbreaks⟩
  cases hbreaks with
  | ended _ => exact .ended hw (.inl rfl)
  | failed _ => exact .failed hw
  | inverted hdangling hlt =>
      refine .token hw (.inl rfl) fun ts' rest' hw' => ?_
      exact CharacterClass.read_eq_error_iff.2 ⟨w, _, _, hw', hu, .inverted hdangling hlt⟩

theorem Bounds.Ends.congr {s : Bounds.Specifier} (h : Bounds.Ends s rest) (heq : mid.kind? = rest.kind?) :
    Bounds.Ends s mid :=
  ⟨heq ▸ h.no_digit, heq ▸ h.no_comma⟩

/-- Bounds are refused at the token behind their numbers, or at the end. -/
theorem Bounds.sited_read (h : Bounds.read ts = .error e) : Sited Bounds.read ts e := by
  rcases Bounds.read_eq_error_iff.1 h with ⟨w, s, rest, hw, hs, hbreaks⟩
  cases hbreaks with
  | overflow hfit hnot =>
      refine .token hw (.inr (.inr (.inr rfl))) fun ts' rest' hw' => ?_
      exact Bounds.read_eq_error_iff.2 ⟨w, s, _, hw', hs, .overflow hfit hnot⟩
  | failed hfit => exact .failed hw
  | disordered hfit hends htoken hdisordered =>
      cases rest with
      | failed p => exact absurd rfl (htoken p)
      | ended p => exact .ended hw (.inr (.inr (.inr rfl)))
      | token k c p rest =>
          -- Of the token behind the numbers only the kind matters, which other chains have as well.
          refine .token hw (.inr (.inr (.inr rfl))) fun ts' rest' hw' => ?_
          exact Bounds.read_eq_error_iff.2 ⟨w, s, _, hw', hs, .disordered hfit (hends.congr rfl) (by simp) hdisordered⟩
  | unfinished hfit hends htoken hordered hbrace =>
      cases rest with
      | failed p => exact absurd rfl (htoken p)
      | ended p => exact .ended hw (.inr (.inr (.inl rfl)))
      | token k c p rest =>
          refine .token hw (.inr (.inr (.inl rfl))) fun ts' rest' hw' => ?_
          exact Bounds.read_eq_error_iff.2
            ⟨w, s, _, hw', hs, .unfinished hfit (hends.congr rfl) (by simp) hordered hbrace⟩

/-- A regular expression is refused at a place, in a class or in bounds. -/
theorem Regex.sited_parse (h : Regex.parse ts = .error e) : Sited Regex.parse ts e := by
  rcases Regex.parse_eq_error_iff.1 h with ⟨d, rest, hd, hopens, hbreaks⟩
  rcases hopens.exists_word with ⟨w, hw, hsame⟩
  cases hbreaks with
  | failed => exact .failed hw
  | unclosed _ => exact .ended hw (.inr (.inl rfl))
  | tooDeep hmax =>
      refine .token hw (.inr (.inl rfl)) fun ts' rest' hw' => ?_
      exact Regex.parse_eq_error_iff.2 ⟨d, _, hd, hsame hw' id, .tooDeep hmax⟩
  | @characterClass c p mid _ hclass =>
      have hmid : Reads ts (w ++ [⟨.classBegin, c⟩]) mid := hw.append (.cons .nil)
      refine (CharacterClass.sited_read hclass).behind hmid fun ts' mid' hmid' hclass' => ?_
      rcases reads_append_iff.1 hmid' with ⟨place, hplace, hbegin⟩
      rcases reads_singleton_iff.1 hbegin with ⟨p', rfl⟩
      exact Regex.parse_eq_error_iff.2 ⟨d, _, hd, hsame hplace id, .characterClass hclass'⟩
  | @bounds _ mid u a c p _ ha hu hbounds =>
      have hmid : Reads ts (w ++ (u ++ [⟨.repeatBegin, c⟩])) mid := hw.append (hu.append (.cons .nil))
      refine (Bounds.sited_read hbounds).behind hmid fun ts' mid' hmid' hbounds' => ?_
      rcases reads_append_iff.1 hmid' with ⟨place, hplace, hatom⟩
      rcases reads_append_iff.1 hatom with ⟨behind, hu', hbegin⟩
      rcases reads_singleton_iff.1 hbegin with ⟨p', rfl⟩
      have hopens' := hsame hplace (Regex.unquantified_congr hu hu' id)
      exact Regex.parse_eq_error_iff.2 ⟨d, _, hd, hopens', .bounds ha hu' hbounds'⟩

/-- A failure behind the first element of a glob. -/
theorem Glob.sited_element (hw : Reads ts w mid)
    (hcons : ∀ ts' mid', Reads ts' w mid' → ∃ t, Glob.elements ts' = (Glob.elements mid').map (t :: ·))
    (h : Sited Glob.elements mid e) : Sited Glob.elements ts e := by
  refine h.behind hw fun ts' mid' hw' herror => ?_
  rcases hcons ts' mid' hw' with ⟨t, ht⟩
  rw [ht, herror]
  rfl

/-- An element of one token. -/
theorem Glob.sited_token {k : Token.Kind} {c : Char} {p : Nat} {t : Tree}
    (hcons : ∀ p rest, Glob.elements (.token k c p rest) = (Glob.elements rest).map (t :: ·))
    (h : Sited Glob.elements rest e) : Sited Glob.elements (.token k c p rest) e := by
  refine sited_element (w := [⟨k, c⟩]) (.cons .nil) (fun ts' mid' hw' => ?_) h
  rcases reads_singleton_iff.1 hw' with ⟨p', rfl⟩
  exact ⟨t, hcons p' _⟩

/-- A glob is refused where there is no token, or in a class. -/
theorem Glob.sited_elements (h : Glob.elements ts = .error e) : Sited Glob.elements ts e := by
  fun_induction Glob.elements ts with
  | case1 => exact absurd h (by simp)
  | case2 p =>
      obtain rfl := by simpa using h
      exact .failed .nil
  | case3 c p ts e' hshorter hread =>
      obtain rfl : e' = e := by simpa using h
      have hclass : CharacterClass.read ts = .error e' := congrArg Subtype.val hread
      refine (CharacterClass.sited_read hclass).behind (w := [⟨.classBegin, c⟩]) (.cons .nil) ?_
      intro ts' mid' hw' hclass'
      rcases reads_singleton_iff.1 hw' with ⟨p', rfl⟩
      rw [Glob.elements_class, hclass']
      rfl
  | case4 c p ts l hshorter hread ih =>
      have hclass : CharacterClass.read ts = .ok l := congrArg Subtype.val hread
      -- The class is read in the same way in front of other tokens.
      rcases CharacterClass.read_written hclass with ⟨u, listing, hu, hwritten, -⟩
      refine Glob.sited_element (w := ⟨.classBegin, c⟩ :: u) (.cons hu) (fun ts' mid' hw' => ?_)
        (ih (SyntaxError.map_eq_error_iff.1 h))
      rcases reads_cons_iff.1 hw' with ⟨p', ts'', rfl, hu'⟩
      rcases hwritten.read_eq_ok hu' with ⟨q, hok⟩
      exact ⟨_, by rw [Glob.elements_class, hok]; rfl⟩
  | case5 c p ts ih =>
      exact Glob.sited_token (fun p rest => by rw [Glob.elements]) (ih (SyntaxError.map_eq_error_iff.1 h))
  | case6 c p ts ih =>
      exact Glob.sited_token (fun p rest => by rw [Glob.elements]) (ih (SyntaxError.map_eq_error_iff.1 h))
  | case7 k c p ts hclass hone hstar ih =>
      exact Glob.sited_token (fun p rest => Glob.elements_char hstar hone hclass)
        (ih (SyntaxError.map_eq_error_iff.1 h))

theorem Glob.sited_parse (h : Glob.parse ts = .error e) : Sited Glob.parse ts e := by
  refine (Glob.sited_elements (SyntaxError.map_eq_error_iff.1 h)).behind .nil fun ts' mid' hw' herror => ?_
  obtain rfl := reads_nil_iff.1 hw'
  exact SyntaxError.map_eq_error_iff.2 herror

/-- All failures are at a place. -/
theorem Dialect.sited_treeOf {d : Dialect} (h : d.treeOf ts = .error e) : Sited d.treeOf ts e := by
  cases d with
  | regex => exact Regex.sited_parse h
  | glob => exact Glob.sited_parse h

/-! ## Texts -/

namespace Dialect

variable {d : Dialect} {pattern : String}

/-- Where a text stops to have tokens, there are whole tokens before. -/
theorem word?_take {p : Nat} (h : Reads (d.tokens pattern) w (.failed p)) :
    (d.tokens (String.ofList (pattern.toList.take p))).word? = some w := by
  rw [tokens_eq_reading] at h
  rcases Token.Table.reads_congr h with ⟨q, -, hrest, hsame⟩
  obtain rfl := Token.Table.reading_eq_failed hrest.symm
  rw [Nat.sub_zero] at hsame
  have hw := hsame (pattern.toList.take p) (by rw [List.take_take, Nat.min_self])
  rw [List.drop_take_self] at hw
  rw [tokens_eq_reading, String.toList_ofList]
  exact word?_eq_some_iff.2 ⟨_, hw⟩

/-- A token is also one of each text with the same characters up to it. -/
theorem reads_of_take {k : Token.Kind} {c : Char} {p : Nat} (h : Reads (d.tokens pattern) w (.token k c p rest))
    {other : String} (htake : other.toList.take p = pattern.toList.take p) :
    ∃ rest', Reads (d.tokens other) w (.token k c p rest') := by
  rw [tokens_eq_reading] at h ⊢
  rcases Token.Table.reads_congr h with ⟨q, -, hrest, hsame⟩
  rw [Nat.sub_zero] at hrest hsame
  have hlt := (Token.Table.reading_eq_token hrest.symm).1
  -- The token begins at `q`. The texts are alike before it, and between its ends.
  have hbefore : other.toList.take q = pattern.toList.take q := by
    have hshort := congrArg (List.take q) htake
    rwa [List.take_take, List.take_take, Nat.min_eq_left (Nat.le_of_lt hlt)] at hshort
  have hbehind : (other.toList.drop q).take (p - q) = (pattern.toList.drop q).take (p - q) := by
    have hend := congrArg (List.drop q) htake
    rwa [List.drop_take, List.drop_take] at hend
  have hw := hsame other.toList hbefore
  rw [Token.Table.reading_congr hrest.symm hbehind] at hw
  exact ⟨_, hw⟩

/-- What the error of a pattern says of it. -/
structure Offence (d : Dialect) (pattern : String) (e : SyntaxError) : Prop where
  position_le : e.position ≤ pattern.toList.length + 1
  /-- Classes and groups are closed later, or never. -/
  at_end : e.kind = .unfinishedClass ∨ e.kind = .unfinishedGroup → e.position = pattern.toList.length + 1
  /-- There are whole tokens up to the position, and none behind it. -/
  no_token : e.kind = .unrecognizedCharacter →
    (∃ w, (d.tokens (String.ofList (pattern.toList.take e.position))).word? = some w) ∧
      d.table.NoToken (pattern.toList.drop e.position)
  at_token : e.kind = .invalidRange ∨ e.kind = .nestingTooDeep → e.position ≤ pattern.toList.length
  /-- What stands behind the position is no matter. -/
  same : e.kind ≠ .unrecognizedCharacter → e.position ≤ pattern.toList.length →
    ∀ other : String, other.toList.take e.position = pattern.toList.take e.position → d.parse other = .error e

/-- Where a failure has a place, its error says just what is wrong there. -/
theorem Offence.of_sited {e : SyntaxError} (h : Sited d.treeOf (d.tokens pattern) e) : d.Offence pattern e := by
  cases h with
  | @failed w p hw =>
      rcases placed_of_reads hw with ⟨hle, hreading⟩
      refine ⟨Nat.le_succ_of_le hle, by simp, fun _ => ⟨⟨w, word?_take hw⟩, noToken_of_reading hreading.symm⟩,
        by simp, fun hne => absurd rfl hne⟩
  | @ended w p kind hw hkind =>
      have hp : p = pattern.toList.length + 1 := placed_of_reads hw
      have hbehind : ¬ p ≤ pattern.toList.length := by omega
      refine ⟨Nat.le_of_eq hp, fun _ => hp, ?_, ?_, fun _ hle => absurd hle hbehind⟩
      · rintro rfl
        exact absurd hkind (by simp [SyntaxError.Kind.AtEnd])
      · rintro (rfl | rfl) <;> exact absurd hkind (by simp [SyntaxError.Kind.AtEnd])
  | @token w k c p rest kind hw hkind hsame =>
      have hle : p ≤ pattern.toList.length := (placed_of_reads hw).1
      refine ⟨Nat.le_succ_of_le hle, ?_, ?_, fun _ => hle, fun _ _ other htake => ?_⟩
      · rintro (rfl | rfl) <;> exact absurd hkind (by simp [SyntaxError.Kind.AtToken])
      · rintro rfl
        exact absurd hkind (by simp [SyntaxError.Kind.AtToken])
      · rcases reads_of_take hw htake with ⟨rest', hw'⟩
        exact hsame _ _ hw'

/-- An error of a pattern is found at the first token that offends, and depends on the text up to there only. The
reading functions read no token behind the end of the pattern, so a pattern of whole tokens has no character that
is not recognized. -/
theorem first_offence (d : Dialect) (pattern : String) :
    (∀ e, d.parse pattern = .error e → d.Offence pattern e) ∧
    (∃ s, Descent.parse d pattern = some (d.parse pattern, s) ∧ s.reads ≤ (d.tokens pattern).length + 1) ∧
    ∀ w, (d.tokens pattern).word? = some w →
      ∀ e, d.parse pattern = .error e → e.kind ≠ .unrecognizedCharacter := by
  refine ⟨fun e herror => .of_sited (sited_treeOf herror), Descent.parse_eq d pattern, fun w hw e herror => ?_⟩
  cases sited_treeOf herror with
  | failed hfailed =>
      rw [hfailed.word?_eq] at hw
      exact absurd hw (by simp [word?])
  | ended _ hkind =>
      rintro rfl
      exact absurd hkind (by simp [SyntaxError.Kind.AtEnd])
  | token _ hkind =>
      rintro rfl
      exact absurd hkind (by simp [SyntaxError.Kind.AtToken])

/-- For numbers out of order, which are refused in the same way whatever stands behind them. -/
theorem first_offence_disordered :
    Dialect.regex.parse "a{2,1}" = .error ⟨.invalidRepeat, 6⟩ ∧
      ∀ behind, Dialect.regex.parse ("a{2,1}" ++ behind) = .error ⟨.invalidRepeat, 6⟩ := by
  have htokens : Dialect.regex.tokens "a{2,1}" =
      .token .literal 'a' 1 (.token .repeatBegin '{' 2 (.token .digit '2' 3 (.token .comma ',' 4
        (.token .digit '1' 5 (.token .repeatEnd '}' 6 (.ended 7)))))) :=
    (tokens_eq_reading _ _).trans (by decide)
  have hfit : Bounds.Specifier.RunsFit ⟨['2'], some ['1']⟩ :=
    Bounds.Specifier.runsFit_second_iff.2 ⟨by decide, by decide⟩
  have hinside : Reads (.token .digit '2' 3 (.token .comma ',' 4 (.token .digit '1' 5
      (.token .repeatEnd '}' 6 (.ended 7))))) (Bounds.digits ['2'] ++ ⟨.comma, ','⟩ :: Bounds.digits ['1'])
      (.token .repeatEnd '}' 6 (.ended 7)) :=
    .cons (.cons (.cons .nil))
  have hbounds := Bounds.read_eq_error_iff.2 ⟨_, _, _, hinside, .second rfl,
    .disordered hfit ⟨by decide, by decide⟩ (by simp) ⟨['1'], rfl, by decide, by decide⟩⟩
  have hatom : (Regex.Atom.literal 'a').Derives 0 [⟨.literal, 'a'⟩] := .literal (by constructor <;> simp)
  have herror : Dialect.regex.parse "a{2,1}" = .error ⟨.invalidRepeat, 6⟩ := by
    refine Regex.parse_eq_error_iff.2 ⟨0, _, Nat.zero_le _, .pattern .nil, ?_⟩
    rw [htokens]
    exact .bounds hatom (.cons .nil) hbounds
  refine ⟨herror, fun behind => ?_⟩
  have hsame := ((Dialect.first_offence .regex "a{2,1}").1 _ herror).same
  refine hsame (by simp) (by decide) _ ?_
  rw [String.toList_append]
  exact List.take_left' rfl

end Dialect

end MaximalMunch
