import MaximalMunch.Json.Literal

/-!
# Reading JSON

- `Json.skipBlanks` : drops blanks, line ends and tabs
- `Json.value`      : reads a value, with a limit on the depth of the recursion
- `Json.read?`      : reads a text that holds one value

Each call of the recursion takes at most two steps of the limit for a character, so the limit of `read?` is
never met.
-/

namespace MaximalMunch

namespace Json

def skipBlanks (cs : List Char) : List Char := cs.dropWhile isBlank

mutual

/-- Read a value and the text behind it. -/
def value : Nat → List Char → Option (Value × List Char)
  | 0, _ => none
  | limit + 1, cs =>
    match skipBlanks cs with
    | 'n' :: 'u' :: 'l' :: 'l' :: rest => some (.null, rest)
    | 't' :: 'r' :: 'u' :: 'e' :: rest => some (.bool true, rest)
    | 'f' :: 'a' :: 'l' :: 's' :: 'e' :: rest => some (.bool false, rest)
    | '"' :: rest => (literalBody rest).map fun (parts, rest) => (.text parts, rest)
    | '[' :: rest =>
      match skipBlanks rest with
      | ']' :: rest => some (.array [], rest)
      | rest => (elements limit rest).map fun (vs, rest) => (.array vs, rest)
    | '{' :: rest =>
      match skipBlanks rest with
      | '}' :: rest => some (.object [], rest)
      | rest => (members limit rest).map fun (ms, rest) => (.object ms, rest)
    | rest => number rest

/-- Read the elements of an array up to its closing bracket. -/
def elements : Nat → List Char → Option (List Value × List Char)
  | 0, _ => none
  | limit + 1, cs =>
    match value limit cs with
    | none => none
    | some (v, rest) =>
      match skipBlanks rest with
      | ']' :: rest => some ([v], rest)
      | ',' :: rest => (elements limit rest).map fun (vs, rest) => (v :: vs, rest)
      | _ => none

/-- Read the members of an object up to its closing brace. -/
def members : Nat → List Char → Option (List (List TextPart × Value) × List Char)
  | 0, _ => none
  | limit + 1, cs =>
    match skipBlanks cs with
    | '"' :: rest =>
      match literalBody rest with
      | none => none
      | some (key, rest) =>
        match skipBlanks rest with
        | ':' :: rest =>
          match value limit rest with
          | none => none
          | some (v, rest) =>
            match skipBlanks rest with
            | '}' :: rest => some ([(key, v)], rest)
            | ',' :: rest => (members limit rest).map fun (ms, rest) => ((key, v) :: ms, rest)
            | _ => none
        | _ => none
    | _ => none

end

/-- The value of a text. Only blanks may stand around it. -/
def read? (s : String) : Option Value :=
  let cs := s.toList
  match value (2 * cs.length + 2) cs with
  | some (v, rest) => if (skipBlanks rest).isEmpty then some v else none
  | none => none

end Json

end MaximalMunch
