import MaximalMunch.Json.Codec
import MaximalMunch.Json.Reader
import MaximalMunch.Json.Writer

/-!
# The standard codec

Values are turned into JSON values, whose compact texts are written. A record is read from an object, whose
members may come in any order and among others, or from an array of the fields in their order.

- `Form.toJson`, `Form.ofJson?` : values of a form as JSON values
- `Json.field?`                 : a field of an object
- `Json.fields?`                : the fields of a record, each of which may be missing
- `Json.standard`               : the codec
-/

namespace MaximalMunch

namespace Json

/-! ## Writing -/

/-- An object with the given members. -/
def objectOf (members : List (String × Value)) : Value :=
  .object (members.map fun m => (partsOf m.1, m.2))

mutual

/-- The JSON value for a value of the form. -/
def Form.toJson : {α : Type} → Form α → α → Value
  | _, .text, s => .ofString s
  | _, .int64, n => .integer (n.toInt < 0) n.toInt.natAbs
  | _, .uint64, n => .integer false n.toNat
  | _, .name _ name, a => .ofString (name a)
  | _, .list form, as => .array (as.map form.toJson)
  | _, .optional _, none => .null
  | _, .optional form, some a => form.toJson a
  | _, .record _ fields, a => objectOf (fields.toJson a)

def Fields.toJson : {α γ : Type} → Fields α γ → α → List (String × Value)
  | _, _, .done, _ => []
  | _, _, .field key get form _ absent rest, a =>
    if absent (get a) then rest.toJson a else (key, form.toJson (get a)) :: rest.toJson a

end

/-! ## Reading -/

/-- An integer of a value. Zero has no sign. -/
def integer? : Value → Option Int
  | .integer false m => some m
  | .integer true m => if m = 0 then none else some (-m)
  | _ => none

/-- An integer, if it fits into 64 bits with a sign. -/
def int64? (i : Int) : Option Int64 :=
  if (Int64.ofInt i).toInt = i then some (Int64.ofInt i) else none

/-- An integer, if it fits into 64 bits without a sign. -/
def uint64? (i : Int) : Option UInt64 :=
  if (UInt64.ofNat i.toNat).toNat = i then some (UInt64.ofNat i.toNat) else none

/-- A name is a string, or the one key of an object that has no value for it. -/
def name? : Value → Option String
  | .text parts => string? parts
  | .object [(key, .null)] => string? key
  | _ => none

/-- The values of a key. -/
def valuesOf (key : String) (ms : List (String × Value)) : List Value :=
  (ms.filter fun m => m.1 == key).map Prod.snd

/-- The value of a key, if it has one. A key must not stand in an object twice. -/
def field? (ms : List (String × Value)) (key : String) : Option (Option Value) :=
  match valuesOf key ms with
  | [] => some none
  | [v] => some (some v)
  | _ => none

/-- The members of an object with the texts of their keys. -/
def named? : List (List TextPart × Value) → Option (List (String × Value))
  | [] => some []
  | (key, v) :: ms =>
    match string? key, named? ms with
    | some key, some ms => some ((key, v) :: ms)
    | _, _ => none

/-- The fields of a record by their keys. An array may leave out fields at the end. -/
def fields? (keys : List String) : Value → Option (List (Option Value))
  | .object ms =>
    match named? ms with
    | some ms => keys.mapM (field? ms)
    | none => none
  | .array vs =>
    if vs.length ≤ keys.length then
      some (vs.map some ++ List.replicate (keys.length - vs.length) none)
    else none
  | _ => none

mutual

/-- The value of the form that a JSON value stands for. -/
def Form.ofJson? : {α : Type} → Form α → Value → Option α
  | _, .text, v => v.string?
  | _, .int64, v => (integer? v).bind int64?
  | _, .uint64, v => (integer? v).bind uint64?
  | _, .name values name, v => (name? v).bind fun s => values.find? (fun b => name b == s)
  | _, .list form, .array vs => vs.mapM form.ofJson?
  | _, .list _, _ => none
  | _, .optional _, .null => some none
  | _, .optional form, v => (form.ofJson? v).map some
  | _, .record make fields, v => (fields? fields.keys v).bind (fields.ofJson? make)

/-- The record that is made of the values of its fields. -/
def Fields.ofJson? : {α γ : Type} → Fields α γ → γ → List (Option Value) → Option α
  | _, _, .done, a, _ => some a
  | _, _, .field _ _ form _ _ rest, make, some v :: vs =>
    (form.ofJson? v).bind fun b => rest.ofJson? (make b) vs
  | _, _, .field _ _ _ default? _ rest, make, none :: vs => default?.bind fun b => rest.ofJson? (make b) vs
  | _, _, .field .., _, [] => none

end

/-- The codec of compact texts. -/
def standard : Codec where
  write form a := compact (form.toJson a)
  read? form text := (read? text).bind form.ofJson?

end Json

end MaximalMunch
