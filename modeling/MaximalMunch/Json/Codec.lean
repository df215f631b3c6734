import MaximalMunch.Json.Form
import MaximalMunch.Json.Literal

/-!
# Codecs

A codec writes the values of any form and reads them back. Nothing else is known of it than the rules by which
it writes and reads, and what is proved of data in JSON is proved from them.

- `Json.LiteralOf`, `Json.IntegerOf` : the literals of a text and of an integer
- `Json.stringText`, `integerText`, `arrayText`, `objectText` : the compact texts
- `Json.Codec`    : a writer and a reader
- `Codec.Lawful`  : the rules

A text may have many literals, of which the writer chooses one. The rules for reading tell nothing of blanks, of
unknown keys and of literals with surrogate pairs, though a reader may take them.
-/

namespace MaximalMunch

namespace Json

/-! ## Literals -/

/-- What stands between the quotation marks of a literal for some characters. Each of them stands for itself
or is escaped, with a letter or with its number. -/
inductive LiteralOf : List Char → List Char → Prop where
  | nil : LiteralOf [] []
  | plain {c : Char} {body cs : List Char} : c ≠ '"' → c ≠ '\\' → ¬ c < ' ' → LiteralOf body cs →
      LiteralOf (c :: body) (c :: cs)
  | short {e c : Char} {body cs : List Char} : shortEscape? e = some c → LiteralOf body cs →
      LiteralOf ('\\' :: e :: body) (c :: cs)
  /-- The number is no half of a surrogate pair. -/
  | number {u : UInt16} {w x y z : Char} {body cs : List Char} : unit? w x y z = some (.unit u) →
      isLeading u = false → isTrailing u = false → LiteralOf body cs →
      LiteralOf ('\\' :: 'u' :: w :: x :: y :: z :: body) (Char.ofNat u.toNat :: cs)

/-- The digits of a number, without zeros in front. -/
structure NumeralOf (digits : List Char) (m : Nat) : Prop where
  nonempty : digits ≠ []
  isDigit : ∀ c ∈ digits, c.isDigit = true
  front : digits.head? = some '0' → digits = ['0']
  value : Nat.ofDigitChars 10 digits 0 = m

/-- The literal of an integer. Zero has no sign. -/
inductive IntegerOf : List Char → Int → Prop where
  | nonneg {digits : List Char} {m : Nat} : NumeralOf digits m → IntegerOf digits m
  | negative {digits : List Char} {m : Nat} : NumeralOf digits m → 0 < m → IntegerOf ('-' :: digits) (-m)

/-! ## Compact texts -/

/-- Texts with commas between them. -/
def separated : List (List Char) → List Char
  | [] => []
  | [t] => t
  | t :: ts => t ++ ',' :: separated ts

def stringText (s : String) : String := String.ofList (literal (partsOf s))

def integerText (i : Int) : String := String.ofList (integerLiteral (i < 0) i.natAbs)

def arrayText (elements : List String) : String :=
  String.ofList ('[' :: separated (elements.map String.toList) ++ [']'])

/-- A key and the text of its value. -/
def memberText (m : String × String) : List Char := literal (partsOf m.1) ++ ':' :: m.2.toList

def objectText (members : List (String × String)) : String :=
  String.ofList ('{' :: separated (members.map memberText) ++ ['}'])

/-! ## Writers and readers -/

/-- A writer and a reader for all forms. -/
structure Codec where
  write {α : Type} (form : Form α) (a : α) : String
  read? {α : Type} (form : Form α) (text : String) : Option α

namespace Fields

/-- The members that are written for the fields of a record, without those that are absent. -/
def members (c : Codec) : {α γ : Type} → Fields α γ → α → List (String × String)
  | _, _, done, _ => []
  | _, _, field key get form _ absent rest, a =>
    if absent (get a) then rest.members c a else (key, c.write form (get a)) :: rest.members c a

/-- The record that is made of the members with the keys of its fields. -/
def assemble? (c : Codec) (members : List (String × String)) : {α γ : Type} → Fields α γ → γ → Option α
  | _, _, done, a => some a
  | _, _, field key _ form default? _ rest, make =>
    match members.lookup key with
    | some text => (c.read? form text).bind fun b => rest.assemble? c members (make b)
    | none => default?.bind fun b => rest.assemble? c members (make b)

end Fields

namespace Codec

/-- The number of objects and arrays that a reader need not enter. -/
def depthLimit : Nat := 128

/-- The rules of writing and reading. -/
structure Lawful (c : Codec) : Prop where
  write_text (s : String) : c.write .text s = stringText s
  write_int64 (n : Int64) : c.write .int64 n = integerText n.toInt
  write_uint64 (n : UInt64) : c.write .uint64 n = integerText n.toNat
  write_name {α : Type} {values : List α} {name : α → String} {a : α} : a ∈ values →
    c.write (.name values name) a = stringText (name a)
  write_list {α : Type} (form : Form α) (as : List α) :
    c.write (.list form) as = arrayText (as.map (c.write form))
  write_none {α : Type} (form : Form α) : c.write (.optional form) none = "null"
  write_some {α : Type} (form : Form α) (a : α) : c.write (.optional form) (some a) = c.write form a
  /-- The fields stand in their order. -/
  write_record {α γ : Type} (make : γ) (fields : Fields α γ) (a : α) :
    c.write (.record make fields) a = objectText (fields.members c a)
  read_text {body : List Char} {s : String} : LiteralOf body s.toList →
    c.read? .text (String.ofList ('"' :: body ++ ['"'])) = some s
  read_int64 {literal : List Char} {n : Int64} : IntegerOf literal n.toInt →
    c.read? .int64 (String.ofList literal) = some n
  read_uint64 {literal : List Char} {n : UInt64} : IntegerOf literal n.toNat →
    c.read? .uint64 (String.ofList literal) = some n
  read_name {α : Type} {values : List α} {name : α → String} {body : List Char} {s : String} {a : α} :
    LiteralOf body s.toList → values.find? (fun b => name b == s) = some a →
    c.read? (.name values name) (String.ofList ('"' :: body ++ ['"'])) = some a
  read_list {α : Type} {form : Form α} {texts : List String} {as : List α} :
    (Form.list form).depth < depthLimit → texts.mapM (c.read? form) = some as →
    c.read? (.list form) (arrayText texts) = some as
  read_null {α : Type} (form : Form α) : c.read? (.optional form) "null" = some none
  /-- What does not begin like `null` is no `null`. -/
  read_some {α : Type} {form : Form α} {text : String} {a : α} {front : Char} {rest : List Char} :
    text.toList = front :: rest → isBlank front = false → front ≠ 'n' → c.read? form text = some a →
    c.read? (.optional form) text = some (some a)
  /-- The members may stand in any order. -/
  read_record {α γ : Type} {make : γ} {fields : Fields α γ} {members : List (String × String)} {a : α} :
    (Form.record make fields).depth < depthLimit → fields.keys.Nodup → (members.map Prod.fst).Nodup →
    (∀ m ∈ members, m.1 ∈ fields.keys) → fields.assemble? c members make = some a →
    c.read? (.record make fields) (objectText members) = some a

end Codec

end Json

end MaximalMunch
