import MaximalMunch.Json.Literal

/-!
# Writing JSON

The compact text of a value: no blanks, and the members of an object in their order.
-/

namespace MaximalMunch

namespace Json

mutual

/-- The text of a value. -/
def written : Value → List Char
  | .null => ['n', 'u', 'l', 'l']
  | .bool true => ['t', 'r', 'u', 'e']
  | .bool false => ['f', 'a', 'l', 's', 'e']
  | .integer negative magnitude => integerLiteral negative magnitude
  | .decimal literal => literal
  | .text parts => literal parts
  | .array vs => '[' :: writtenElements vs ++ [']']
  | .object ms => '{' :: writtenMembers ms ++ ['}']

/-- The elements of an array with commas between them. -/
def writtenElements : List Value → List Char
  | [] => []
  | [v] => written v
  | v :: vs => written v ++ ',' :: writtenElements vs

/-- The members of an object with commas between them. -/
def writtenMembers : List (List TextPart × Value) → List Char
  | [] => []
  | [(key, v)] => literal key ++ ':' :: written v
  | (key, v) :: ms => literal key ++ ':' :: written v ++ ',' :: writtenMembers ms

end

/-- The compact text of a value. -/
def compact (v : Value) : String := String.ofList (written v)

end Json

end MaximalMunch
