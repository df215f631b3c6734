/-!
# Forms of data

A form tells how the values of a type look in JSON: a record declares its fields, with the key of each, what
stands for a field that is missing, and which values are not written at all.

- `Json.Form`   : the forms of a type
- `Json.Fields` : the fields of a record, one after another
- `Form.depth`  : how deep objects and arrays are nested in a text of the form
-/

namespace MaximalMunch

namespace Json

mutual

/-- How the values of a type look in JSON. -/
inductive Form : Type → Type 1 where
  | text : Form String
  | int64 : Form Int64
  | uint64 : Form UInt64
  /-- One of some values that have names. -/
  | name {α : Type} (values : List α) (name : α → String) : Form α
  | list {α : Type} (form : Form α) : Form (List α)
  | optional {α : Type} (form : Form α) : Form (Option α)
  /-- A record, and how it is made of its fields. -/
  | record {α γ : Type} (make : γ) (fields : Fields α γ) : Form α

/-- The fields of an `α`, from which a `γ` makes one. -/
inductive Fields : Type → Type → Type 1 where
  | done {α : Type} : Fields α α
  /-- A field. Where it is missing it has its default, if there is one, and it is left out if it is absent. -/
  | field {α β γ : Type} (key : String) (get : α → β) (form : Form β) (default? : Option β)
      (absent : β → Bool) (rest : Fields α γ) : Fields α (β → γ)

end

namespace Fields

/-- A field that has no default and is always written. -/
def required {α β γ : Type} (key : String) (get : α → β) (form : Form β) (rest : Fields α γ) :
    Fields α (β → γ) :=
  field key get form none (fun _ => false) rest

/-- The keys of the fields. -/
def keys : {α γ : Type} → Fields α γ → List String
  | _, _, done => []
  | _, _, field key _ _ _ _ rest => key :: rest.keys

end Fields

mutual

/-- The number of objects and arrays that may stand around a part of a text. A name counts as one, since it
may also be the key of an object. -/
def Form.depth : {α : Type} → Form α → Nat
  | _, .text => 0
  | _, .int64 => 0
  | _, .uint64 => 0
  | _, .name _ _ => 1
  | _, .list form => form.depth + 1
  | _, .optional form => form.depth
  | _, .record _ fields => fields.depth + 1

def Fields.depth : {α γ : Type} → Fields α γ → Nat
  | _, _, .done => 0
  | _, _, .field _ _ form _ _ rest => max form.depth rest.depth

end

end Json

end MaximalMunch
