import MaximalMunch.Proofs.RegexReading
import MaximalMunch.Proofs.TokenPosition

/-!
# Open groups

How many groups are open at a place of a regular expression, and where reading it fails. A place is in the position
of an atom: before it stand whole terms and bars, and the opening parentheses of groups that do not end there. What
follows may be no token, or the end inside of a group, or an atom that cannot be read to its end.

- `Regex.Terms`              : whole terms and bars, inside of some groups
- `Regex.Opens`              : so many groups are open at a place
- `Regex.Terms.derives`      : terms and bars make a choice
- `Regex.Opens.step`         : one step of the reader goes from place to place, and keeps count of the open groups
- `Regex.Opens.exists_read`  : the reader comes to each place where no more groups are open than there may be
- `Regex.Breaks`             : why the reader stops at a place, and the error
- `Regex.parse_eq_error_iff` : reading fails just like this
-/

namespace MaximalMunch

namespace Regex

open Tokens

/-- Between `ts` and `rest` stand whole terms and bars. Groups in which they stand are open, `d` of them. -/
inductive Terms (d : Nat) : Tokens → Tokens → Prop where
  | nil {ts : Tokens} : Terms d ts ts
  | bar {c : Char} {p : Nat} {ts rest : Tokens} :
      Terms d ts rest → Terms d (token .alternative c p ts) rest
  | term {ts mid next rest : Tokens} {u : List Token} {a : Atom} {q : Option Quantifier} :
      a.Derives d u → Reads ts u mid → Suffix mid q next → Terms d next rest → Terms d ts rest

/-- At the place `rest` of the tokens `ts`, `d` groups are open: their parentheses were read in the position of an
atom, and they have not been closed. -/
inductive Opens : Nat → Tokens → Tokens → Prop where
  | pattern {ts rest : Tokens} : Terms 0 ts rest → Opens 0 ts rest
  | group {d : Nat} {ts inner rest : Tokens} {c : Char} {p : Nat} :
      Opens d ts (token .groupBegin c p inner) → Terms (d + 1) inner rest → Opens (d + 1) ts rest

variable {d d' : Nat} {s s' : State} {ts ts₀ mid next rest : Tokens} {u v w : List Token} {e : SyntaxError}

/-! ## Terms -/

theorem Terms.trans (h : Terms d ts mid) (h' : Terms d mid rest) : Terms d ts rest := by
  induction h with
  | nil =>
      exact h'
  | bar _ ih =>
      exact .bar (ih h')
  | term ha hu hq _ ih =>
      exact .term ha hu hq (ih h')

theorem Opens.terms (h : Opens d ts mid) (h' : Terms d mid rest) : Opens d ts rest := by
  cases h with
  | pattern h => exact .pattern (h.trans h')
  | group h hterms => exact .group h (hterms.trans h')

theorem not_quantified_of_unquantified (h : Unquantified ts) (hw : Reads ts w rest) : ¬ Quantified w := by
  rintro ⟨k, hk, hbegins⟩
  have hne : w ≠ [] := by
    rintro rfl
    exact not_begins_nil hbegins
  exact h k ((hw.begins_iff hne).1 hbegins) hk

theorem Suffix.exists_follows {q : Option Quantifier} (h : Suffix mid q next) (hw : Reads next w rest) :
    ∃ v, Reads mid v rest ∧ Follows q v w := by
  cases h with
  | plain hnot =>
      exact ⟨w, hw, .plain (not_quantified_of_unquantified hnot hw)⟩
  | quantified hq hreads =>
      exact ⟨_, hreads.append hw, .quantified hq⟩

/-- Whole terms and bars make a choice. -/
theorem Terms.derives (h : Terms d ts rest) : ∃ w c, Reads ts w rest ∧ Choice.Derives d w c := by
  induction h with
  | nil =>
      exact ⟨[], .last .nil, .nil, .last .nil⟩
  | @bar c p ts rest _ ih =>
      rcases ih with ⟨w, b, hw, hb⟩
      exact ⟨_, .bar .nil b, .cons hw, .bar (u := []) .nil rfl hb⟩
  | term ha hu hq _ ih =>
      rcases ih with ⟨w, c, hw, hc⟩
      rcases hq.exists_follows hw with ⟨v, hv, hfollows⟩
      rw [← List.append_nil w] at hfollows
      rcases Choice.Derives.cons ha hc hfollows with ⟨v', rfl, hcons⟩
      rw [List.append_nil] at hv
      exact ⟨_, _, hu.append hv, hcons⟩

/-! ## The same tokens in front of others -/

theorem exists_reads (w : List Token) (rest : Tokens) : ∃ ts, Reads ts w rest := by
  induction w with
  | nil => exact ⟨rest, .nil⟩
  | cons t w ih =>
      rcases ih with ⟨ts, hts⟩
      exact ⟨token t.kind t.char 0 ts, .cons hts⟩

/-- The same word in front of other tokens begins with a quantifier only if it did before. -/
theorem unquantified_congr {ts' rest' : Tokens} (hw : Reads ts w rest) (hw' : Reads ts' w rest')
    (hrest : Unquantified rest → Unquantified rest') (h : Unquantified ts) : Unquantified ts' := by
  cases hw with
  | nil =>
      obtain rfl := reads_nil_iff.1 hw'
      exact hrest h
  | cons =>
      cases hw' with
      | cons => exact h

theorem Suffix.exists_word {q : Option Quantifier} (h : Suffix mid q next) :
    ∃ v, Reads mid v next ∧ ∀ {mid' next' : Tokens}, Reads mid' v next' →
      (Unquantified next → Unquantified next') → Suffix mid' q next' := by
  cases h with
  | plain hnot =>
      refine ⟨[], .nil, fun hreads hnext => ?_⟩
      obtain rfl := reads_nil_iff.1 hreads
      exact .plain (hnext hnot)
  | quantified hq hreads =>
      exact ⟨_, hreads, fun hreads' _ => .quantified hq hreads'⟩

/-- Terms and bars are a matter of their tokens, if no quantifier follows them. -/
theorem Terms.exists_word (h : Terms d ts rest) :
    ∃ w, Reads ts w rest ∧ ∀ {ts' rest' : Tokens}, Reads ts' w rest' →
      (Unquantified rest → Unquantified rest') → Terms d ts' rest' := by
  induction h with
  | nil =>
      refine ⟨[], .nil, fun hreads _ => ?_⟩
      obtain rfl := reads_nil_iff.1 hreads
      exact .nil
  | @bar c p ts rest _ ih =>
      rcases ih with ⟨w, hw, hsame⟩
      refine ⟨⟨.alternative, c⟩ :: w, .cons hw, fun hreads hrest => ?_⟩
      rcases reads_cons_iff.1 hreads with ⟨p', ts', rfl, hreads'⟩
      exact .bar (hsame hreads' hrest)
  | @term ts mid next rest u a q ha hu hq _ ih =>
      rcases ih with ⟨w, hw, hsame⟩
      rcases hq.exists_word with ⟨v, hv, hsuffix⟩
      refine ⟨u ++ (v ++ w), hu.append (hv.append hw), fun hreads hrest => ?_⟩
      rcases reads_append_iff.1 hreads with ⟨mid', hu', hreads'⟩
      rcases reads_append_iff.1 hreads' with ⟨next', hv', hw'⟩
      exact .term ha hu' (hsuffix hv' (unquantified_congr hw hw' hrest)) (hsame hw' hrest)

/-- So is the number of open groups. -/
theorem Opens.exists_word (h : Opens d ts rest) :
    ∃ w, Reads ts w rest ∧ ∀ {ts' rest' : Tokens}, Reads ts' w rest' →
      (Unquantified rest → Unquantified rest') → Opens d ts' rest' := by
  induction h with
  | pattern hterms =>
      rcases hterms.exists_word with ⟨w, hw, hsame⟩
      exact ⟨w, hw, fun hreads hrest => .pattern (hsame hreads hrest)⟩
  | @group d ts inner rest c p _ hterms ih =>
      rcases ih with ⟨u, hu, houtside⟩
      rcases hterms.exists_word with ⟨w, hw, hinside⟩
      refine ⟨u ++ ⟨.groupBegin, c⟩ :: w, hu.append (.cons hw), fun hreads hrest => ?_⟩
      rcases reads_append_iff.1 hreads with ⟨mid', hu', hreads'⟩
      rcases reads_cons_iff.1 hreads' with ⟨p', inner', rfl, hw'⟩
      -- An opening parenthesis is no quantifier, so what stands before it is as it was.
      have hbegin : Unquantified (token .groupBegin c p' inner') := unquantified_token (by simp [Quantifies])
      exact .group (houtside hu' fun _ => hbegin) (hinside hw' hrest)

/-! ## From place to place -/

theorem Atom.Derives.ne_nil {a : Atom} (h : a.Derives d u) : u ≠ [] := by
  cases h <;> simp

/-- An atom that the reader adds is a whole term. -/
theorem Opens.add {a : Atom} {t : Tree} (h : Opens s.outer.length ts₀ ts) (ha : a.Derives s.outer.length u)
    (hu : Reads ts u mid) (hadd : s.add t mid = .ok (s', rest)) : Opens s'.outer.length ts₀ rest := by
  rcases add_iff.1 hadd with ⟨q, hsuffix, rfl⟩
  exact h.terms (.term ha hu hsuffix .nil)

/-- A closing parenthesis makes the innermost open group an atom. -/
theorem Opens.close {c : Char} {p : Nat} (h : Opens (d + 1) ts (token .groupEnd c p mid)) (hd : d < maxDepth) :
    ∃ (place : Tokens) (u : List Token) (b : Choice),
      Opens d ts place ∧ Reads place u mid ∧ (Atom.group b).Derives d u := by
  cases h with
  | @group _ _ inner _ c' p' hopens hterms =>
      rcases hterms.derives with ⟨w, b, hw, hb⟩
      exact ⟨_, _, b, hopens, .cons (hw.append (.cons .nil)), .group rfl hd hb rfl⟩

/-- A step of the reader goes on to another place. The levels around the innermost one are the open groups. -/
theorem Opens.step {k : Token.Kind} {c : Char} {p : Nat} (h : Opens s.outer.length ts₀ (token k c p ts))
    (hdepth : s.outer.length ≤ maxDepth) (hstep : Regex.step s k c p ts = .ok (s', rest)) :
    Opens s'.outer.length ts₀ rest := by
  unfold Regex.step at hstep
  split at hstep
  · obtain ⟨rfl, rfl⟩ := by simpa using hstep
    exact h.terms (.bar .nil)
  · split at hstep
    · exact absurd hstep (by simp)
    · obtain ⟨rfl, rfl⟩ := by simpa using hstep
      exact .group h .nil
  · -- A closing parenthesis is a character, or it ends the innermost group.
    split at hstep
    · rename_i houter
      have hl : Literal s.outer.length .groupEnd := by constructor <;> simp [houter]
      exact h.add (.literal hl) (.cons .nil) hstep
    · rename_i level outer houter
      rw [houter] at h hdepth
      rcases h.close hdepth with ⟨place, u, b, hopens, hu, ha⟩
      exact Opens.add (s := { level, outer }) hopens ha hu hstep
  · split at hstep
    · exact absurd hstep (by simp)
    · rename_i _ hclass
      rcases CharacterClass.read_written hclass with ⟨x, l, hreads, hl, -⟩
      exact h.add (.characterClass rfl hl) (.cons hreads) hstep
  · exact h.add (.wildcard rfl) (.cons .nil) hstep
  · rename_i h₁ h₂ h₃ h₄ h₅
    have hl : Literal s.outer.length k := ⟨h₅, h₄, h₂, h₁, fun _ => h₃⟩
    exact h.add (.literal hl) (.cons .nil) hstep

/-- Reading terms and bars changes the innermost level only. -/
theorem Terms.exists_read (h : Terms s.outer.length ts rest) :
    ∃ l, read s ts = read { s with level := l } rest := by
  generalize hd : s.outer.length = d at h
  induction h generalizing s with
  | nil =>
      exact ⟨s.level, rfl⟩
  | bar _ ih =>
      rcases ih (s := { s with level := s.level.nextBranch }) hd with ⟨l, hl⟩
      exact ⟨l, by rw [read_token]; exact hl⟩
  | @term ts mid next rest u a q ha hu hq _ ih =>
      rcases ih (s := { s with level := s.level.push (quantifiedTree a.tree q) }) hd with ⟨l, hl⟩
      refine ⟨l, ?_⟩
      rw [read_atom a (hd ▸ ha) hu, add_iff.2 ⟨q, hq, rfl⟩]
      exact hl

/-- The reader comes to each place with not too many open groups. -/
theorem Opens.exists_read (h : Opens d ts rest) (hd : d ≤ maxDepth) :
    ∃ s : State, s.outer.length = d ∧ parse ts = read s rest := by
  induction h with
  | pattern hterms =>
      rcases Terms.exists_read (s := {}) hterms with ⟨l, hl⟩
      exact ⟨_, rfl, hl⟩
  | @group d ts inner rest c p _ hterms ih =>
      rcases ih (Nat.le_of_succ_le hd) with ⟨s, hs, hread⟩
      have hne : ¬ s.outer.length = maxDepth := by omega
      rcases Terms.exists_read (s := { level := {}, outer := s.level :: s.outer }) (hs ▸ hterms) with ⟨l, hl⟩
      refine ⟨{ level := l, outer := s.level :: s.outer }, congrArg (· + 1) hs, hread.trans ?_⟩
      rw [read_token, Regex.step, if_neg hne]
      exact hl

/-! ## Where reading fails -/

/-- `Breaks d rest e`: at the place `rest`, with `d` open groups, reading stops with the error `e`. -/
inductive Breaks (d : Nat) : Tokens → SyntaxError → Prop where
  | failed {p : Nat} : Breaks d (.failed p) ⟨.unrecognizedCharacter, p⟩
  | unclosed {p : Nat} : 0 < d → Breaks d (.ended p) ⟨.unfinishedGroup, p⟩
  | tooDeep {c : Char} {p : Nat} {ts : Tokens} :
      d = maxDepth → Breaks d (token .groupBegin c p ts) ⟨.nestingTooDeep, p⟩
  | characterClass {c : Char} {p : Nat} {ts : Tokens} {e : SyntaxError} :
      CharacterClass.read ts = .error e → Breaks d (token .classBegin c p ts) e
  /-- What stands behind an opening brace is no bounds. -/
  | bounds {rest ts : Tokens} {u : List Token} {a : Atom} {c : Char} {p : Nat} {e : SyntaxError} :
      a.Derives d u → Reads rest u (token .repeatBegin c p ts) → Bounds.read ts = .error e → Breaks d rest e

theorem quantified_eq_error {t : Tree} (h : quantified t ts = .error e) :
    ∃ c p rest, ts = token .repeatBegin c p rest ∧ Bounds.read rest = .error e := by
  unfold quantified at h
  split at h
  case h_4 c p rest =>
    split at h
    · rename_i hb
      obtain rfl := by simpa using h
      exact ⟨c, p, rest, rfl, hb⟩
    · exact absurd h (by simp)
  all_goals exact absurd h (by simp)

/-- What stands behind an atom may be no bounds. -/
theorem Breaks.quantified {a : Atom} {t : Tree} (ha : a.Derives d u) (hu : Reads ts u mid)
    (h : Regex.quantified t mid = .error e) : Breaks d ts e := by
  rcases quantified_eq_error h with ⟨c, p, rest, rfl, hb⟩
  exact .bounds ha hu hb

/-- Where an atom cannot be added, its bounds cannot be read. -/
theorem Breaks.add {a : Atom} {t : Tree} (ha : a.Derives d u) (hu : Reads ts u mid)
    (h : s.add t mid = .error e) : Breaks d ts e := by
  unfold State.add at h
  split at h
  · rename_i hq
    obtain rfl := by simpa using h
    exact .quantified ha hu hq
  · exact absurd h (by simp)

/-- A step that fails breaks at the place where it begins or, behind a group, where the group begins. -/
theorem Opens.breaks {k : Token.Kind} {c : Char} {p : Nat} (h : Opens s.outer.length ts₀ (token k c p ts))
    (hdepth : s.outer.length ≤ maxDepth) (hstep : Regex.step s k c p ts = .error e) :
    ∃ d rest, d ≤ maxDepth ∧ Opens d ts₀ rest ∧ Breaks d rest e := by
  unfold Regex.step at hstep
  split at hstep
  · exact absurd hstep (by simp)
  · split at hstep
    · rename_i hmax
      obtain rfl := by simpa using hstep
      exact ⟨_, _, hdepth, h, .tooDeep hmax⟩
    · exact absurd hstep (by simp)
  · split at hstep
    · rename_i houter
      have hl : Literal s.outer.length .groupEnd := by constructor <;> simp [houter]
      exact ⟨_, _, hdepth, h, .add (.literal hl) (.cons .nil) hstep⟩
    · -- The group has been read, and what follows it are no bounds.
      rename_i level outer houter
      rw [houter] at h hdepth
      rcases h.close hdepth with ⟨place, u, b, hopens, hu, ha⟩
      exact ⟨_, _, Nat.le_of_succ_le hdepth, hopens, .add ha hu hstep⟩
  · split at hstep
    · rename_i hclass
      obtain rfl := by simpa using hstep
      exact ⟨_, _, hdepth, h, .characterClass hclass⟩
    · rename_i _ hclass
      rcases CharacterClass.read_written hclass with ⟨x, l, hreads, hl, -⟩
      exact ⟨_, _, hdepth, h, .add (.characterClass rfl hl) (.cons hreads) hstep⟩
  · exact ⟨_, _, hdepth, h, .add (.wildcard rfl) (.cons .nil) hstep⟩
  · rename_i h₁ h₂ h₃ h₄ h₅
    have hl : Literal s.outer.length k := ⟨h₅, h₄, h₂, h₁, fun _ => h₃⟩
    exact ⟨_, _, hdepth, h, .add (.literal hl) (.cons .nil) hstep⟩

theorem Opens.breaks_of_read (h : Opens s.outer.length ts₀ ts) (hdepth : s.outer.length ≤ maxDepth)
    (hread : read s ts = .error e) : ∃ d rest, d ≤ maxDepth ∧ Opens d ts₀ rest ∧ Breaks d rest e := by
  fun_induction read s ts with
  | case1 s p =>
      obtain rfl := by simpa using hread
      exact ⟨_, _, hdepth, h, .failed⟩
  | case2 => exact absurd hread (by simp)
  | case3 s p hopen =>
      obtain rfl := by simpa using hread
      have hpos : 0 < s.outer.length := List.length_pos_iff.2 (by simpa using hopen)
      exact ⟨_, _, hdepth, h, .unclosed hpos⟩
  | case4 s k c p ts e' hshorter hstep =>
      obtain rfl : e' = e := by simpa using hread
      exact h.breaks hdepth (congrArg Subtype.val hstep)
  | case5 s k c p ts s' rest hshorter hstep ih =>
      have hok : Regex.step s k c p ts = .ok (s', rest) := congrArg Subtype.val hstep
      exact ih (h.step hdepth hok) (length_outer_step hdepth hok) hread

/-- What breaks is refused there. -/
theorem Breaks.read_eq_error (h : Breaks s.outer.length rest e) : read s rest = .error e := by
  cases h with
  | failed =>
      rw [read]
  | unclosed hpos =>
      rw [read, if_neg]
      simpa using List.length_pos_iff.1 hpos
  | tooDeep hmax =>
      rw [read_token, step, if_pos hmax]
      rfl
  | characterClass hclass =>
      rw [read_token, step, hclass]
      rfl
  | bounds ha hu hbounds =>
      rw [read_atom _ ha hu, State.add, Regex.quantified, hbounds]
      rfl

/-- Reading fails just at a place with at most as many open groups as there may be, where it breaks. -/
theorem parse_eq_error_iff :
    parse ts = .error e ↔ ∃ d rest, d ≤ maxDepth ∧ Opens d ts rest ∧ Breaks d rest e := by
  constructor
  · intro h
    exact Opens.breaks_of_read (s := {}) (.pattern .nil) (Nat.zero_le _) h
  · rintro ⟨d, rest, hd, hopens, hbreaks⟩
    rcases hopens.exists_read hd with ⟨s, rfl, hread⟩
    rw [hread, hbreaks.read_eq_error]

/-! ## The number of open groups -/

/-- So many closing parentheses, and the end. -/
def closers : Nat → Tokens
  | 0 => .ended 0
  | d + 1 => .token .groupEnd ')' 0 (closers d)

theorem unquantified_closers (d : Nat) : Unquantified (closers d) := by
  cases d with
  | zero => simp [closers, Unquantified, kind?]
  | succ d => exact unquantified_token (by simp [Quantifies])

/-- Closing parentheses close open groups. -/
theorem Opens.close_all (h : Opens (d + d') ts (closers d)) (hd : d + d' ≤ maxDepth) :
    Opens d' ts (.ended 0) := by
  induction d with
  | zero =>
      rwa [Nat.zero_add] at h
  | succ d ih =>
      rw [Nat.add_right_comm] at h hd
      rcases h.close hd with ⟨place, u, b, hopens, hu, ha⟩
      exact ih (hopens.terms (.term ha hu (.plain (unquantified_closers d)) .nil)) (Nat.le_of_succ_le hd)

/-- Where too many groups are open, one of them begins too deep. -/
theorem Opens.exists_tooDeep (h : Opens d ts rest) (hd : maxDepth < d) : ∃ e, parse ts = .error e := by
  induction h with
  | pattern => exact absurd hd (Nat.not_lt_zero maxDepth)
  | @group d ts inner rest c p hopens _ ih =>
      -- Go out to the group that begins where as many groups are open as there may be.
      rcases Nat.lt_or_ge maxDepth d with hlt | hge
      · exact ih hlt
      · have hmax : d = maxDepth := Nat.le_antisymm hge (Nat.le_of_lt_succ hd)
        exact ⟨_, parse_eq_error_iff.2 ⟨d, _, hge, hopens, .tooDeep hmax⟩⟩

/-- At the end no group is open where reading succeeds. -/
theorem Opens.exists_parse_eq_ok {p : Nat} (h : Opens 0 ts (.ended p)) : ∃ t, parse ts = .ok t := by
  rcases h.exists_read (Nat.zero_le _) with ⟨s, hs, hread⟩
  refine ⟨s.level.tree, ?_⟩
  rw [hread, read, List.eq_nil_of_length_eq_zero hs]
  rfl

theorem Opens.not_lt (h : Opens d ts rest) (h' : Opens d' ts rest) (hd : d ≤ maxDepth) : ¬ d < d' := by
  intro hlt
  rcases h.exists_word with ⟨w, hw, hsame⟩
  rcases h'.exists_word with ⟨w', hw', hsame'⟩
  obtain rfl := hw.unique hw'
  -- Close `d` groups behind the same tokens: then no group is open, and some are.
  rcases exists_reads w (closers d) with ⟨ts', hts'⟩
  have hclosed : Opens (d + 0) ts' (closers d) := hsame hts' fun _ => unquantified_closers d
  rcases (hclosed.close_all hd).exists_parse_eq_ok with ⟨t, hok⟩
  have hopen : Opens d' ts' (closers d) := hsame' hts' fun _ => unquantified_closers d
  have herror : ∃ e, parse ts' = .error e := by
    rcases Nat.lt_or_ge maxDepth d' with hdeep | hle
    · exact hopen.exists_tooDeep hdeep
    · obtain ⟨k, rfl⟩ := Nat.exists_eq_add_of_lt hlt
      rw [Nat.add_assoc] at hopen hle
      exact ⟨_, parse_eq_error_iff.2
        ⟨k + 1, _, Nat.le_of_add_left_le hle, hopen.close_all hle, .unclosed (Nat.succ_pos k)⟩⟩
  rcases herror with ⟨e, herror⟩
  exact absurd (hok.symm.trans herror) (by simp)

/-- At each place that the reader may come to, there is one number of open groups. -/
theorem Opens.unique (h : Opens d ts rest) (h' : Opens d' ts rest) (hd : d ≤ maxDepth) : d' = d := by
  have hle : d' ≤ d := Nat.not_lt.1 (h.not_lt h' hd)
  exact Nat.le_antisymm hle (Nat.not_lt.1 (h'.not_lt h (Nat.le_trans hle hd)))

end Regex

end MaximalMunch
