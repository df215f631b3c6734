import Mathlib.Data.List.Forall2
import MaximalMunch.Json.Standard
import MaximalMunch.Proofs.JsonPrefix

/-!
# The standard codec keeps the rules

Arrays and objects are read element by element and member by member, since what is read does not depend on the text
behind it.

- `read?_string`, `read?_integer`, `read?_arrayText`, `read?_objectText` : texts of each kind that are read
- `Fields.ofJson?_lookup` : a record is made of the values of its members
- `Json.standard_lawful`  : the rules
-/

namespace MaximalMunch

namespace Json

/-! ## Texts -/

/-- What is read as a whole text is read in front of more text, with nothing but blanks behind it. -/
theorem value_of_read? {t : String} {v : Value} (h : read? t = some v) (limit : Nat) {more : List Char}
    (hlimit : 2 * t.toList.length + 2 ≤ limit) (hmore : Delimited more) :
    ∃ rest, value limit (t.toList ++ more) = some (v, rest) ∧ skipBlanks rest = skipBlanks more := by
  rw [read?] at h
  cases hvalue : value (2 * t.toList.length + 2) t.toList with
  | none =>
      simp [hvalue] at h
  | some r =>
      obtain ⟨v', rest⟩ := r
      obtain ⟨hblank, rfl⟩ : skipBlanks rest = [] ∧ v' = v := by simpa [hvalue] using h
      exact ⟨rest ++ more, (extends_all _).value hvalue hlimit hmore, skipBlanks_append_of_nil hblank more⟩

/-- A text that holds a value and nothing behind it is read as this value. -/
theorem read?_ofList {cs : List Char} {v : Value} (h : value (2 * cs.length + 2) cs = some (v, [])) :
    read? (String.ofList cs) = some v := by
  rw [read?, String.toList_ofList]
  simp only [h]
  rfl

theorem delimited_cons {c : Char} (h : c = ',' ∨ c = ']' ∨ c = '\x7d') (cs : List Char) :
    Delimited (c :: cs) := by
  intro x hx
  obtain rfl : c = x := by simpa using hx
  rcases h with rfl | rfl | rfl <;> decide

theorem separated_cons (t u : List Char) (ts : List (List Char)) :
    separated (t :: u :: ts) = t ++ ',' :: separated (u :: ts) := rfl

/-- The elements of an array are read up to its closing bracket. -/
theorem elements_separated {ts : List String} {vs : List Value}
    (h : List.Forall₂ (fun t v => read? t = some v) ts vs) (hne : ts ≠ []) (rest : List Char) (limit : Nat)
    (hlimit : 2 * (separated (ts.map String.toList)).length + 3 ≤ limit) :
    elements limit (separated (ts.map String.toList) ++ ']' :: rest) = some (vs, rest) := by
  induction h generalizing limit with
  | nil =>
      exact absurd rfl hne
  | @cons t v ts vs ht hts ih =>
      obtain ⟨k, rfl⟩ : ∃ k, limit = k + 1 := ⟨limit - 1, by omega⟩
      cases hts with
      | nil =>
          obtain ⟨tail, hv, hblank⟩ := value_of_read? ht k (by simpa [separated] using hlimit)
            (delimited_cons (c := ']') (by simp) rest)
          exact elements_eq_some_iff.2 ⟨v, tail, hv, Or.inl ⟨hblank, rfl⟩⟩
      | @cons u w us ws hu hus =>
          simp only [List.map_cons, separated_cons, List.length_append, List.length_cons] at hlimit ih ⊢
          have hvs := ih (by simp) k (by omega)
          obtain ⟨tail, hv, hblank⟩ := value_of_read? ht k (by omega)
            (delimited_cons (c := ',') (by simp) (separated (u.toList :: us.map String.toList) ++ ']' :: rest))
          rw [List.append_assoc, List.cons_append]
          exact elements_eq_some_iff.2 ⟨v, tail, hv, Or.inr ⟨_, _, hblank, hvs, rfl⟩⟩

/-- An array of texts that are read. -/
theorem read?_arrayText {ts : List String} {vs : List Value}
    (h : List.Forall₂ (fun t v => read? t = some v) ts vs) : read? (arrayText ts) = some (.array vs) := by
  have hfront : skipBlanks ('[' :: separated (ts.map String.toList) ++ [']']) =
      '[' :: (separated (ts.map String.toList) ++ [']']) := skipBlanks_cons (by decide) _
  refine read?_ofList ((value_array_iff hfront).2 ?_)
  cases h with
  | nil =>
      exact Or.inl ⟨rfl, rfl⟩
  | @cons t v ts vs ht hts =>
      refine Or.inr ⟨_, elements_separated (.cons ht hts) (by simp) [] _ ?_, rfl⟩
      simp only [List.length_cons, List.length_append, List.length_nil]
      omega

/-- The value of a member, which is read from its text, under its key. -/
def ReadsMember (m : String × String) (w : String × Value) : Prop := w.1 = m.1 ∧ read? m.2 = some w.2

/-- A member in front of more text. -/
theorem memberAt_memberText {m : String × String} {w : String × Value} (h : ReadsMember m w) (limit : Nat)
    {more : List Char} (hlimit : 2 * (memberText m).length ≤ limit) (hmore : Delimited more) :
    ∃ key rest, MemberAt limit (memberText m ++ more) key w.2 rest ∧ skipBlanks rest = skipBlanks more ∧
      string? key = some w.1 := by
  obtain ⟨key, text⟩ := m
  obtain ⟨key', v⟩ := w
  obtain ⟨rfl, hv⟩ : key' = key ∧ read? text = some v := h
  have htext : memberText (key', text) ++ more =
      '"' :: (key'.toList.flatMap literalChar ++ '"' :: ':' :: (text.toList ++ more)) := by
    simp [memberText, literal_partsOf]
  have hlength : text.toList.length + 1 ≤ (memberText (key', text)).length := by
    simp [memberText]
  obtain ⟨ps, hps, hkey⟩ := (literalOf_text key'.toList).exists_parts (':' :: (text.toList ++ more))
  obtain ⟨rest, hvalue, hblank⟩ := value_of_read? hv limit (by omega) hmore
  rw [htext]
  refine ⟨ps, rest, ⟨_, _, _, skipBlanks_cons (by decide) _, hps, skipBlanks_cons (by decide) _, hvalue⟩, hblank, ?_⟩
  rw [string?, hkey, Option.map_some, String.ofList_toList]

/-- The members of an object are read up to its closing brace. -/
theorem members_separated {ms : List (String × String)} {ws : List (String × Value)}
    (h : List.Forall₂ ReadsMember ms ws) (hne : ms ≠ []) (rest : List Char) (limit : Nat)
    (hlimit : 2 * (separated (ms.map memberText)).length + 3 ≤ limit) :
    ∃ named, members limit (separated (ms.map memberText) ++ '\x7d' :: rest) = some (named, rest) ∧
      named? named = some ws := by
  induction h generalizing limit with
  | nil =>
      exact absurd rfl hne
  | @cons m w ms ws hm hms ih =>
      obtain ⟨k, rfl⟩ : ∃ k, limit = k + 1 := ⟨limit - 1, by omega⟩
      cases hms with
      | nil =>
          obtain ⟨key, tail, hmember, hblank, hkey⟩ := memberAt_memberText hm k
            (by simp only [List.map_cons, List.map_nil, separated] at hlimit; omega)
            (delimited_cons (c := '\x7d') (by simp) rest)
          refine ⟨_, members_eq_some_iff.2 ⟨key, w.2, tail, hmember, Or.inl ⟨hblank, rfl⟩⟩, ?_⟩
          simp [named?, hkey]
      | @cons n u ns us hn hns =>
          simp only [List.map_cons, separated_cons, List.length_append, List.length_cons] at hlimit ih ⊢
          obtain ⟨named, hnamed, hws⟩ := ih (by simp) k (by omega)
          obtain ⟨key, tail, hmember, hblank, hkey⟩ := memberAt_memberText hm k (by omega)
            (delimited_cons (c := ',') (by simp) (separated (memberText n :: ns.map memberText) ++ '\x7d' :: rest))
          rw [List.append_assoc, List.cons_append]
          refine ⟨_, members_eq_some_iff.2 ⟨key, w.2, tail, hmember, Or.inr ⟨_, _, hblank, hnamed, rfl⟩⟩, ?_⟩
          simp [named?, hkey, hws]

/-- An object of texts that are read. -/
theorem read?_objectText {ms : List (String × String)} {ws : List (String × Value)}
    (h : List.Forall₂ ReadsMember ms ws) :
    ∃ named, read? (objectText ms) = some (.object named) ∧ named? named = some ws := by
  have hfront : skipBlanks ('\x7b' :: separated (ms.map memberText) ++ ['\x7d']) =
      '\x7b' :: (separated (ms.map memberText) ++ ['\x7d']) := skipBlanks_cons (by decide) _
  cases h with
  | nil =>
      exact ⟨[], read?_ofList ((value_object_iff hfront).2 (Or.inl ⟨rfl, rfl⟩)), rfl⟩
  | @cons m w ms ws hm hms =>
      obtain ⟨named, hnamed, hws⟩ := members_separated (.cons hm hms) (by simp) []
        (2 * (separated ((m :: ms).map memberText)).length + 5) (by omega)
      have hlength : 2 * ('\x7b' :: separated ((m :: ms).map memberText) ++ ['\x7d']).length + 2 =
          2 * (separated ((m :: ms).map memberText)).length + 5 + 1 := by
        simp only [List.length_cons, List.length_append, List.length_nil]
        omega
      refine ⟨named, read?_ofList ?_, hws⟩
      rw [hlength]
      exact (value_object_iff hfront).2 (Or.inr ⟨named, hnamed, rfl⟩)

/-- A literal of a string. -/
theorem read?_string {body cs : List Char} (h : LiteralOf body cs) :
    ∃ ps, read? (String.ofList ('"' :: body ++ ['"'])) = some (.text ps) ∧ characters? ps = some cs := by
  obtain ⟨ps, hps, hcs⟩ := h.exists_parts []
  refine ⟨ps, read?_ofList ?_, hcs⟩
  rw [value, List.cons_append, skipBlanks_cons (by decide)]
  simp [hps]

/-- A literal of an integer. -/
theorem read?_integer {literal : List Char} {i : Int} (h : IntegerOf literal i) :
    read? (String.ofList literal) = some (.integer (i < 0) i.natAbs) := by
  obtain ⟨c, cs, hcs, hnumber⟩ := h.exists_front
  have hread := h.number_eq delimited_nil
  rw [List.append_nil, hcs] at hread
  rw [hcs]
  refine read?_ofList ?_
  rw [hnumber.value_eq _ (skipBlanks_cons hnumber.not_blank cs), hread]

theorem ne_null_of_unsigned {negative : Bool} {cs rest : List Char} {v : Value}
    (h : unsigned negative cs = some (v, rest)) : v ≠ .null := by
  rintro rfl
  rw [unsigned] at h
  split at h
  · exact absurd h (by simp)
  · split at h
    · exact absurd h (by simp)
    · split at h
      · exact absurd h (by simp)
      · split at h <;> exact absurd h (by simp)
      · exact absurd h (by simp)

theorem ne_null_of_number {cs rest : List Char} {v : Value} (h : number cs = some (v, rest)) : v ≠ .null := by
  rw [number.eq_def] at h
  split at h <;> exact ne_null_of_unsigned h

/-- Only what begins like `null` is read as null. -/
theorem front_of_value_null {limit : Nat} {cs rest : List Char} (h : value limit cs = some (.null, rest)) :
    ∃ tail, skipBlanks cs = 'n' :: tail := by
  cases limit with
  | zero =>
      exact absurd h (by simp [value])
  | succ limit =>
      have hvalue := h
      rw [value] at h
      split at h
      case h_1 heq => exact ⟨_, heq⟩
      case h_2 | h_3 | h_4 => exact absurd h (by simp)
      case h_5 heq =>
        rcases (value_array_iff heq).1 hvalue with ⟨-, hv⟩ | ⟨_, -, hv⟩ <;> exact absurd hv (by simp)
      case h_6 heq =>
        rcases (value_object_iff heq).1 hvalue with ⟨-, hv⟩ | ⟨_, -, hv⟩ <;> exact absurd hv (by simp)
      case h_7 => exact absurd rfl (ne_null_of_number h)

/-! ## Writing -/

theorem writtenElements_eq (vs : List Value) : writtenElements vs = separated (vs.map written) := by
  induction vs with
  | nil =>
      rfl
  | cons v vs ih =>
      cases vs with
      | nil =>
          rfl
      | cons u us =>
          rw [writtenElements, ih]
          · rfl
          · simp

theorem writtenMembers_eq (ms : List (List TextPart × Value)) :
    writtenMembers ms = separated (ms.map fun m => literal m.1 ++ ':' :: written m.2) := by
  induction ms with
  | nil =>
      rfl
  | cons m ms ih =>
      cases ms with
      | nil =>
          rfl
      | cons n ns =>
          rw [writtenMembers, ih]
          · rfl
          · simp

theorem standard_write {α : Type} (form : Form α) (a : α) : standard.write form a = compact (form.toJson a) := rfl

theorem standard_read? {α : Type} (form : Form α) (text : String) :
    standard.read? form text = (read? text).bind form.ofJson? := rfl

theorem compact_array (vs : List Value) : compact (.array vs) = arrayText (vs.map compact) := by
  simp [compact, written, writtenElements_eq, arrayText, Function.comp_def]

theorem compact_objectOf (ms : List (String × Value)) :
    compact (objectOf ms) = objectText (ms.map fun m => (m.1, compact m.2)) := by
  simp [compact, objectOf, written, writtenMembers_eq, objectText, memberText, Function.comp_def]

theorem Fields.members_standard {α γ : Type} (fields : Fields α γ) (a : α) :
    fields.members standard a = (fields.toJson a).map fun m => (m.1, compact m.2) := by
  match fields with
  | .done =>
      rfl
  | .field key get form default? absent rest =>
      rw [Fields.members, Fields.toJson, rest.members_standard a]
      split <;> rfl

/-! ## Records -/

theorem integer?_integer (i : Int) : integer? (.integer (i < 0) i.natAbs) = some i := by
  by_cases hneg : i < 0
  · have hne : i.natAbs ≠ 0 := by omega
    have habs : -(i.natAbs : Int) = i := by omega
    simp only [hneg, decide_true, integer?, if_neg hne, habs]
  · have habs : (i.natAbs : Int) = i := by omega
    simp only [hneg, decide_false, integer?, habs]

theorem int64?_toInt (n : Int64) : int64? n.toInt = some n := by simp [int64?]

theorem uint64?_toNat (n : UInt64) : uint64? n.toNat = some n := by simp [uint64?]

/-- A key that stands in an object once has one value. -/
theorem field?_eq_lookup {ms : List (String × Value)} (h : (ms.map Prod.fst).Nodup) (key : String) :
    field? ms key = some (ms.lookup key) := by
  have hvalues : valuesOf key ms = (ms.lookup key).toList := by
    induction ms with
    | nil =>
        rfl
    | cons m ms ih =>
        obtain ⟨k, v⟩ := m
        obtain ⟨hk, hms⟩ := List.nodup_cons.1 h
        by_cases heq : k = key
        · -- No other member has the key.
          subst heq
          have hnone : ms.filter (fun m => m.1 == k) = [] := by
            rw [List.filter_eq_nil_iff]
            intro m hm hbeq
            exact hk (List.mem_map.2 ⟨m, hm, eq_of_beq hbeq⟩)
          simp [valuesOf, hnone]
        · have hlookup : ((k, v) :: ms).lookup key = ms.lookup key := by
            rw [List.lookup_cons, beq_false_of_ne (Ne.symm heq)]
          rw [hlookup, ← ih hms]
          simp [valuesOf, heq]
  rw [field?, hvalues]
  cases ms.lookup key <;> rfl

/-- The values of the members are found under their keys. -/
theorem lookup_of_readsMember {ms : List (String × String)} {ws : List (String × Value)}
    (h : List.Forall₂ ReadsMember ms ws) (key : String) :
    (ms.lookup key = none ∧ ws.lookup key = none) ∨
      ∃ text v, ms.lookup key = some text ∧ ws.lookup key = some v ∧ read? text = some v := by
  induction h with
  | nil =>
      exact Or.inl ⟨rfl, rfl⟩
  | @cons m w ms ws hm _ ih =>
      obtain ⟨k, text⟩ := m
      obtain ⟨k', v⟩ := w
      obtain ⟨rfl, hv⟩ : k' = k ∧ read? text = some v := hm
      by_cases heq : key = k'
      · subst heq
        exact Or.inr ⟨text, v, List.lookup_cons_self, List.lookup_cons_self, hv⟩
      · simpa [List.lookup_cons, beq_false_of_ne heq] using ih

/-- A record is made of the values of its members, as it is of their texts. -/
theorem Fields.ofJson?_lookup {ms : List (String × String)} {ws : List (String × Value)}
    (h : List.Forall₂ ReadsMember ms ws) : ∀ {α γ : Type} (fields : Fields α γ) (make : γ),
    fields.ofJson? make (fields.keys.map (List.lookup · ws)) = fields.assemble? standard ms make
  | _, _, .done, _ => rfl
  | _, _, .field key get form default? absent rest, make => by
      rw [Fields.keys, List.map_cons, Fields.assemble?]
      rcases lookup_of_readsMember h key with ⟨hm, hw⟩ | ⟨text, v, hm, hw, hv⟩
      · simp only [hm, hw, Fields.ofJson?, rest.ofJson?_lookup h]
      · simp only [hm, hw, Fields.ofJson?, rest.ofJson?_lookup h, standard_read?, hv, Option.bind_some]

/-- Where a record is put together, the member of each key is read. -/
theorem Fields.exists_of_assemble? {ms : List (String × String)} {α γ : Type} (fields : Fields α γ) {make : γ}
    {a : α} (h : fields.assemble? standard ms make = some a) {key text : String} (hkey : key ∈ fields.keys)
    (htext : ms.lookup key = some text) : ∃ v, read? text = some v := by
  match fields with
  | .done =>
      exact absurd hkey List.not_mem_nil
  | .field key' get form default? absent rest =>
      rw [Fields.assemble?] at h
      rcases List.mem_cons.1 hkey with rfl | hkey
      · simp only [htext, standard_read?] at h
        obtain ⟨b, hb, -⟩ := Option.bind_eq_some_iff.1 h
        obtain ⟨v, hv, -⟩ := Option.bind_eq_some_iff.1 hb
        exact ⟨v, hv⟩
      · split at h
        all_goals
          obtain ⟨b, -, hrest⟩ := Option.bind_eq_some_iff.1 h
          exact rest.exists_of_assemble? hrest hkey htext

/-- Members that are read one by one. -/
theorem exists_readsMember {ms : List (String × String)} (h : ∀ m ∈ ms, ∃ v, read? m.2 = some v) :
    ∃ ws, List.Forall₂ ReadsMember ms ws := by
  induction ms with
  | nil =>
      exact ⟨[], .nil⟩
  | cons m ms ih =>
      obtain ⟨v, hv⟩ := h m List.mem_cons_self
      obtain ⟨ws, hws⟩ := ih fun n hn => h n (List.mem_cons_of_mem _ hn)
      exact ⟨(m.1, v) :: ws, .cons ⟨rfl, hv⟩ hws⟩

theorem keys_of_readsMember {ms : List (String × String)} {ws : List (String × Value)}
    (h : List.Forall₂ ReadsMember ms ws) : ws.map Prod.fst = ms.map Prod.fst := by
  induction h with
  | nil =>
      rfl
  | cons hm _ ih =>
      rw [List.map_cons, List.map_cons, ih, hm.1]

/-- A member whose key stands once is found under it. -/
theorem lookup_of_mem {ms : List (String × String)} (h : (ms.map Prod.fst).Nodup) {m : String × String}
    (hm : m ∈ ms) : ms.lookup m.1 = some m.2 := by
  induction ms with
  | nil =>
      exact absurd hm List.not_mem_nil
  | cons n ms ih =>
      obtain ⟨hn, hms⟩ := List.nodup_cons.1 h
      rcases List.mem_cons.1 hm with rfl | hm
      · exact List.lookup_cons_self
      · have hne : m.1 ≠ n.1 := fun heq => hn (heq ▸ List.mem_map_of_mem hm)
        rw [List.lookup_cons, beq_false_of_ne hne]
        exact ih hms hm

/-- A record is read from the object of its members. -/
theorem standard_read_record {α γ : Type} {make : γ} {fields : Fields α γ} {ms : List (String × String)} {a : α}
    (hms : (ms.map Prod.fst).Nodup) (hkeys : ∀ m ∈ ms, m.1 ∈ fields.keys)
    (h : fields.assemble? standard ms make = some a) :
    standard.read? (.record make fields) (objectText ms) = some a := by
  -- The record takes the value of every member, so every member is read.
  obtain ⟨ws, hws⟩ := exists_readsMember fun m hm =>
    fields.exists_of_assemble? h (hkeys m hm) (lookup_of_mem hms hm)
  obtain ⟨named, hread, hnamed⟩ := read?_objectText hws
  have hnodup : (ws.map Prod.fst).Nodup := by rwa [keys_of_readsMember hws]
  have hfields : fields? fields.keys (.object named) = some (fields.keys.map (List.lookup · ws)) := by
    simp only [fields?, hnamed, funext (field?_eq_lookup hnodup)]
    exact List.mapM_pure
  rw [standard_read?, hread, Option.bind_some, Form.ofJson?, hfields, Option.bind_some,
    fields.ofJson?_lookup hws, h]

/-- Elements that are read one by one. -/
theorem exists_of_mapM {α : Type} {form : Form α} {ts : List String} {as : List α}
    (h : ts.mapM (standard.read? form) = some as) :
    ∃ vs, List.Forall₂ (fun t v => read? t = some v) ts vs ∧ vs.mapM form.ofJson? = some as := by
  induction ts generalizing as with
  | nil =>
      exact ⟨[], .nil, h⟩
  | cons t ts ih =>
      rw [List.mapM_cons] at h
      obtain ⟨a, ha, h⟩ := Option.bind_eq_some_iff.1 h
      obtain ⟨as', has, h⟩ := Option.bind_eq_some_iff.1 h
      obtain ⟨v, hv, hform⟩ := Option.bind_eq_some_iff.1 ha
      obtain ⟨vs, hvs, hforms⟩ := ih has
      refine ⟨v :: vs, .cons hv hvs, ?_⟩
      rw [List.mapM_cons, hform, hforms]
      exact h

/-- What does not begin like `null` is read as no null. -/
theorem ne_null_of_read? {text : String} {v : Value} {front : Char} {rest : List Char}
    (htext : text.toList = front :: rest) (hblank : isBlank front = false) (hne : front ≠ 'n')
    (h : read? text = some v) : v ≠ .null := by
  rintro rfl
  obtain ⟨rest', hvalue, -⟩ := value_of_read? h _ (Nat.le_refl _) delimited_nil
  obtain ⟨tail, hfront⟩ := front_of_value_null hvalue
  rw [List.append_nil, htext, skipBlanks_cons hblank] at hfront
  exact hne (List.cons.inj hfront).1

/-- The standard codec keeps the rules. -/
theorem standard_lawful : standard.Lawful where
  write_text s := rfl
  write_int64 n := rfl
  write_uint64 n := by
    have hneg : ¬ ((n.toNat : Int) < 0) := by omega
    simp [standard_write, Form.toJson, compact, written, integerText, hneg]
  write_name _ := rfl
  write_list form as := by
    rw [standard_write, Form.toJson, compact_array, List.map_map]
    rfl
  write_none _ := rfl
  write_some _ _ := rfl
  write_record make fields a := by
    rw [standard_write, Form.toJson, compact_objectOf, fields.members_standard]
  read_text hbody := by
    obtain ⟨ps, hps, hcs⟩ := read?_string hbody
    rw [standard_read?, hps]
    simp [Form.ofJson?, Value.string?, string?, hcs]
  read_int64 hliteral := by
    rw [standard_read?, read?_integer hliteral, Option.bind_some, Form.ofJson?, integer?_integer,
      Option.bind_some, int64?_toInt]
  read_uint64 hliteral := by
    rw [standard_read?, read?_integer hliteral, Option.bind_some, Form.ofJson?, integer?_integer,
      Option.bind_some, uint64?_toNat]
  read_name hbody hfind := by
    obtain ⟨ps, hps, hcs⟩ := read?_string hbody
    rw [standard_read?, hps]
    simpa [Form.ofJson?, name?, string?, hcs] using hfind
  read_list _ hts := by
    obtain ⟨vs, hvs, has⟩ := exists_of_mapM hts
    rw [standard_read?, read?_arrayText hvs]
    exact has
  read_null form := by
    have hnull : read? "null" = some .null := rfl
    rw [standard_read?, hnull, Option.bind_some, Form.ofJson?]
  read_some htext hblank hne h := by
    rw [standard_read?] at h ⊢
    obtain ⟨v, hv, hform⟩ := Option.bind_eq_some_iff.1 h
    rw [hv, Option.bind_some, Form.ofJson?, hform]
    · rfl
    · intro _ _ _ _
      exact ne_null_of_read? htext hblank hne hv
  read_record _ _ hms hkeys h := standard_read_record hms hkeys h

end Json

end MaximalMunch
