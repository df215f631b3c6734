import MaximalMunch.Match.Json
import MaximalMunch.PatternSet.Json
import MaximalMunch.Proofs.JsonStandard

/-!
# What is written is read back

Any codec that keeps the rules reads back what it wrote, in every form that tells the values of its type apart.
The proof goes by recursion on the form.

- `Form.NonNull`, `Form.Covers` : forms that no `null` is read for, and values that a form tells apart
- `Codec.Lawful.exists_front`   : where the text of a value begins
- `Codec.Lawful.read_write`     : a value of a form is read back
- `Codec.Lawful.assemble_members` : a record is put together from its members
- `PatternSet.text_roundTrip`   : pattern sets and matches are read back
-/

namespace MaximalMunch

namespace Json

/-! ## Values that are told apart -/

/-- The form has no value that is written as `null`. -/
def Form.NonNull : {α : Type} → Form α → Prop
  | _, .optional _ => False
  | _, _ => True

mutual

/-- The value is the only one of the form with its text. -/
def Form.Covers : {α : Type} → Form α → α → Prop
  | _, .text, _ => True
  | _, .int64, _ => True
  | _, .uint64, _ => True
  | _, .name values name, a => values.find? (fun b => name b == name a) = some a
  | _, .list form, as => ∀ a ∈ as, form.Covers a
  | _, .optional form, o => form.NonNull ∧ ∀ a ∈ o, form.Covers a
  | _, .record make fields, a => fields.keys.Nodup ∧ fields.Cover make a

/-- Only the default of a field is left out, and the fields make the record. -/
def Fields.Cover : {α γ : Type} → Fields α γ → γ → α → Prop
  | _, _, .done, made, a => made = a
  | _, _, .field _ get form default? absent rest, make, a =>
    (if absent (get a) then default? = some (get a) else form.Covers (get a)) ∧ rest.Cover (make (get a)) a

end

/-- Every value of the form is told apart, and none is null. -/
structure Form.Total {α : Type} (form : Form α) : Prop where
  nonNull : form.NonNull
  covers : ∀ a, form.Covers a

theorem Form.text_total : Form.text.Total := ⟨trivial, fun _ => trivial⟩

theorem Form.int64_total : Form.int64.Total := ⟨trivial, fun _ => trivial⟩

theorem Form.uint64_total : Form.uint64.Total := ⟨trivial, fun _ => trivial⟩

/-! ## Elements and members -/

/-- If each element is read back, all are. -/
theorem mapM_map_eq_some {α β : Type} {f : α → β} {g : β → Option α} {as : List α}
    (h : ∀ a ∈ as, g (f a) = some a) : (as.map f).mapM g = some as := by
  induction as with
  | nil =>
      rfl
  | cons a as ih =>
      have ha := h a List.mem_cons_self
      have has := ih fun b hb => h b (List.mem_cons_of_mem _ hb)
      simp [List.mapM_cons, ha, has]

/-- The keys that are written are those of the fields, less some that are left out. -/
theorem Fields.members_sublist (c : Codec) {α γ : Type} (fields : Fields α γ) (a : α) :
    ((fields.members c a).map Prod.fst).Sublist fields.keys := by
  match fields with
  | .done =>
      exact List.Sublist.slnil
  | .field key get form default? absent rest =>
      have ih := rest.members_sublist c a
      rw [Fields.members, Fields.keys]
      split
      · exact ih.cons key
      · exact ih.cons_cons key

/-- A key that no field has is not written. -/
theorem Fields.lookup_members_eq_none (c : Codec) {α γ : Type} (fields : Fields α γ) (a : α) {key : String}
    (hkey : key ∉ fields.keys) : (fields.members c a).lookup key = none := by
  rw [List.lookup_eq_none_iff]
  intro m hm
  have hmem := (fields.members_sublist c a).subset (List.mem_map_of_mem hm)
  exact bne_iff_ne.2 fun heq => hkey (heq ▸ hmem)

/-! ## Reading back -/

namespace Codec.Lawful

variable {c : Codec}

/-- The first character of a text shows that it is no `null`. -/
theorem exists_front (h : c.Lawful) {α : Type} {form : Form α} (hform : form.NonNull) {a : α}
    (ha : form.Covers a) :
    ∃ front rest, (c.write form a).toList = front :: rest ∧ isBlank front = false ∧ front ≠ 'n' := by
  cases form with
  | text =>
      rw [h.write_text, stringText_eq, String.toList_ofList]
      exact ⟨'"', _, rfl, by decide, by decide⟩
  | int64 =>
      obtain ⟨front, rest, hfront, hnumber⟩ := (integerOf_literal a.toInt).exists_front
      rw [h.write_int64, integerText, String.toList_ofList, hfront]
      exact ⟨front, rest, rfl, hnumber.not_blank, hnumber.ne 'n' (by decide) (by decide)⟩
  | uint64 =>
      obtain ⟨front, rest, hfront, hnumber⟩ := (integerOf_literal a.toNat).exists_front
      rw [h.write_uint64, integerText, String.toList_ofList, hfront]
      exact ⟨front, rest, rfl, hnumber.not_blank, hnumber.ne 'n' (by decide) (by decide)⟩
  | name values name =>
      rw [h.write_name (List.mem_of_find?_eq_some ha), stringText_eq, String.toList_ofList]
      exact ⟨'"', _, rfl, by decide, by decide⟩
  | list form =>
      rw [h.write_list, arrayText, String.toList_ofList]
      exact ⟨'[', _, rfl, by decide, by decide⟩
  | optional form =>
      exact hform.elim
  | record make fields =>
      rw [h.write_record, objectText, String.toList_ofList]
      exact ⟨'\x7b', _, rfl, by decide, by decide⟩

mutual

/-- A value that its form tells apart is read back from what is written for it. -/
theorem read_write (h : c.Lawful) {α : Type} : ∀ (form : Form α) (a : α), form.depth < depthLimit →
    form.Covers a → c.read? form (c.write form a) = some a
  | .text, s, _, _ => by
      rw [h.write_text, stringText_eq]
      exact h.read_text (literalOf_text s.toList)
  | .int64, n, _, _ => by
      rw [h.write_int64]
      exact h.read_int64 (integerOf_literal n.toInt)
  | .uint64, n, _, _ => by
      rw [h.write_uint64]
      exact h.read_uint64 (integerOf_literal n.toNat)
  | .name values name, a, _, ha => by
      rw [h.write_name (List.mem_of_find?_eq_some ha), stringText_eq]
      exact h.read_name (literalOf_text (name a).toList) ha
  | .list form, as, hdepth, has => by
      have hform : form.depth < depthLimit := Nat.lt_of_succ_lt hdepth
      rw [h.write_list]
      refine h.read_list hdepth (mapM_map_eq_some fun a ha => ?_)
      exact h.read_write form a hform (has a ha)
  | .optional form, none, _, _ => by
      rw [h.write_none]
      exact h.read_null form
  | .optional form, some a, hdepth, hcovers => by
      obtain ⟨hform, ha⟩ := hcovers
      obtain ⟨front, rest, hfront, hblank, hne⟩ := h.exists_front hform (ha a rfl)
      rw [h.write_some]
      exact h.read_some hfront hblank hne (h.read_write form a hdepth (ha a rfl))
  | .record make fields, a, hdepth, hcovers => by
      obtain ⟨hkeys, ha⟩ := hcovers
      have hfields : fields.depth < depthLimit := Nat.lt_of_succ_lt hdepth
      have hsub := fields.members_sublist c a
      rw [h.write_record]
      exact h.read_record hdepth hkeys (hsub.nodup hkeys) (fun m hm => hsub.subset (List.mem_map_of_mem hm))
        (h.assemble_members fields make a _ hfields hkeys ha fun _ _ => rfl)

/-- A record is put together from members among which its own are found. -/
theorem assemble_members (h : c.Lawful) {α γ : Type} : ∀ (fields : Fields α γ) (make : γ) (a : α)
    (members : List (String × String)), fields.depth < depthLimit → fields.keys.Nodup → fields.Cover make a →
    (∀ key ∈ fields.keys, members.lookup key = (fields.members c a).lookup key) →
    fields.assemble? c members make = some a
  | .done, _, _, _, _, _, ha, _ => congrArg some ha
  | .field key get form default? absent rest, make, a, members, hdepth, hkeys, hcover, hmembers => by
      obtain ⟨hget, hrest⟩ := hcover
      obtain ⟨hkey, hkeys⟩ := List.nodup_cons.1 hkeys
      have hform : form.depth < depthLimit := Nat.lt_of_le_of_lt (Nat.le_max_left ..) hdepth
      have hdepth : rest.depth < depthLimit := Nat.lt_of_le_of_lt (Nat.le_max_right ..) hdepth
      have hlookup := hmembers key List.mem_cons_self
      -- The other fields have other keys, and are found among the members as before.
      have hassemble := h.assemble_members rest (make (get a)) a members hdepth hkeys hrest fun k hk => by
        have hne : k ≠ key := fun heq => hkey (heq ▸ hk)
        rw [hmembers k (List.mem_cons_of_mem _ hk), Fields.members]
        split
        · rfl
        · rw [List.lookup_cons, beq_false_of_ne hne]
      rw [Fields.assemble?]
      rw [Fields.members] at hlookup
      by_cases habsent : absent (get a)
      · -- The field is left out, and no other one has its key.
        rw [if_pos habsent, rest.lookup_members_eq_none c a hkey] at hlookup
        rw [if_pos habsent] at hget
        simp only [hlookup, hget, Option.bind_some, hassemble]
      · rw [if_neg habsent, List.lookup_cons_self] at hlookup
        rw [if_neg habsent] at hget
        simp only [hlookup, h.read_write form (get a) hform hget, Option.bind_some, hassemble]

end

end Codec.Lawful

end Json

open Json

/-! ## Pattern sets and matches -/

variable {V : Type}

theorem Pattern.covers_form {value : Form V} (hvalue : value.Total) (p : Pattern V) :
    (Pattern.form value).Covers p := by
  simp [Pattern.form, Fields.required, Form.Covers, Fields.Cover, Fields.keys, hvalue.covers]

theorem Match.covers_form {value : Form V} (hvalue : value.Total) (m : Match V) :
    (Match.form value).Covers m := by
  simp [Match.form, Fields.required, Form.Covers, Fields.Cover, Fields.keys, hvalue.covers]

theorem Dialect.covers_form (d : Dialect) : Dialect.form.Covers d := by
  cases d <;> simp [Dialect.form, Form.Covers, Dialect.name]

/-- A dialect is always written, and a missing value for the end of the text is the default. -/
theorem PatternSet.covers_form {value : Form V} (hvalue : value.Total) (s : PatternSet V) :
    (PatternSet.form value).Covers s := by
  obtain ⟨dialect, patterns, endOfText⟩ := s
  cases endOfText <;>
    simp [PatternSet.form, Fields.required, Form.Covers, Fields.Cover, Fields.keys, hvalue.nonNull,
      hvalue.covers, Dialect.covers_form, Pattern.covers_form hvalue]

/-- A set is read back from its text, whatever its values are. -/
theorem PatternSet.ofText?_write {c : Codec} (h : c.Lawful) {value : Form V} (hvalue : value.Total)
    (hdepth : (form value).depth < Codec.depthLimit) (s : PatternSet V) :
    ofText? c value (c.write (form value) s) = some s :=
  h.read_write (form value) s hdepth (covers_form hvalue s)

/-- Any codec that keeps the rules reads back the sets of patterns whose values are texts or integers of 64 bits,
whatever their patterns and values are, and what is read compiles to what it compiled to before. It also reads
back the matches with a text as their value. -/
theorem PatternSet.text_roundTrip (c : Codec) (h : c.Lawful) :
    (∀ s : PatternSet String, ∃ s', ofText? c .text (c.write (form .text) s) = some s' ∧
      s' = s ∧ s'.compile = s.compile) ∧
    (∀ s : PatternSet Int64, ∃ s', ofText? c .int64 (c.write (form .int64) s) = some s' ∧
      s' = s ∧ s'.compile = s.compile) ∧
    (∀ s : PatternSet UInt64, ∃ s', ofText? c .uint64 (c.write (form .uint64) s) = some s' ∧
      s' = s ∧ s'.compile = s.compile) ∧
    ∀ m : Match String, c.read? (Match.form .text) (c.write (Match.form .text) m) = some m := by
  refine ⟨fun s => ⟨s, ?_, rfl, rfl⟩, fun s => ⟨s, ?_, rfl, rfl⟩, fun s => ⟨s, ?_, rfl, rfl⟩, fun m => ?_⟩
  · exact ofText?_write h Form.text_total (by decide) s
  · exact ofText?_write h Form.int64_total (by decide) s
  · exact ofText?_write h Form.uint64_total (by decide) s
  · exact h.read_write (Match.form .text) m (by decide) (Match.covers_form Form.text_total m)

/-- The standard codec on a set whose texts have a quotation mark, a backslash, control characters and a character
beyond 16 bits. -/
theorem PatternSet.text_roundTrip_standard :
    standard.Lawful ∧
      standard.write (form .text) ⟨.glob, [⟨"\"\\\n\x01*", "𝄞"⟩], some "end"⟩ =
        "\x7b\"dialect\":\"glob\",\"patterns\":[\x7b\"pattern\":\"\\\"\\\\\\n\\u0001*\",\"value\":\"𝄞\"\x7d]," ++
          "\"end_of_file\":\"end\"\x7d" ∧
      ofText? standard .text (standard.write (form .text) ⟨.glob, [⟨"\"\\\n\x01*", "𝄞"⟩], some "end"⟩) =
        some ⟨.glob, [⟨"\"\\\n\x01*", "𝄞"⟩], some "end"⟩ := by
  refine ⟨standard_lawful, by rfl, ?_⟩
  obtain ⟨s', hread, rfl, -⟩ :=
    (text_roundTrip standard standard_lawful).1 ⟨.glob, [⟨"\"\\\n\x01*", "𝄞"⟩], some "end"⟩
  exact hread

end MaximalMunch
