import MaximalMunch.Pattern.Parser

/-!
# Recursive descent

The patterns of both dialects can be read by functions that call each other, one for each part of a pattern. They
take the tokens from the scanner one at a time, and hold one token in hand. A counter in the state follows the
groups: it goes up before the inside of a group is read, and down behind it. Each function is given fuel for its
turns, and a turn takes a token at least.

- `Descent.Cursor`, `Parser`   : the state, and programs that change it, may fail and may run out of fuel
- `Descent.next`               : read one token
- `Descent.characterClass`, `bounds`, `quantified`, `atom`, `sequence`, `alternative` : the parts of a pattern
- `Descent.parse`              : a whole pattern
-/

namespace MaximalMunch

namespace Descent

open Token CodePoint

/-- The beginning of one turn of the loop over the terms of a sequence: the counter, how many choices are being
read one inside of the other, and the tokens from the one in hand on. -/
structure Turn where
  depth : Nat
  calls : Nat
  place : Tokens

/-- The state of a parser. No program depends on the last two fields, which record the reads and the turns. -/
structure Cursor where
  scanner : Scanner Lexeme
  /-- The counter of open groups. -/
  depth : Nat := 0
  reads : Nat := 0
  turns : List Turn := []

/-- A program that changes the state and may fail. It is `none` if it runs out of fuel. -/
abbrev Parser := ExceptT SyntaxError (StateT Cursor Option)

def exhausted {α : Type} : Parser α := ExceptT.mk fun _ => none

/-- Read the next token. -/
def next : Parser Item := do
  let s ← get
  set { s with scanner := (readNext s.scanner).2, reads := s.reads + 1 }
  match (readNext s.scanner).1 with
  | .ok t => return t
  | .error e => throw e

/-- Fail at the current position. -/
def fail {α : Type} (kind : SyntaxError.Kind) : Parser α := do
  throw ⟨kind, (← get).scanner.position⟩

/-- The tree of a token that stands for its character. -/
def literal (t : Item) : Parser Tree :=
  match t.char with
  | some c => return Tree.char c
  | none => fail .unrecognizedCharacter

/-! ## Classes -/

/-- Read the items of a class behind those already read. -/
def classItems : Nat → List Range → Item → Parser (List Range)
  | 0, _, _ => exhausted
  | fuel + 1, ranges, t => do
    if t.kind = some .classEnd then return ranges
    else
      match t.char with
      | none => fail .unfinishedClass
      | some begin =>
        let t ← next
        if t.kind = some .range then
          match (← next).char with
          | none => fail .unfinishedClass
          | some last =>
            if last < begin then fail .invalidRange
            else classItems fuel (ranges ++ [⟨ofChar begin, ofChar last⟩]) (← next)
        else classItems fuel (ranges ++ [.ofChar begin]) t

/-- Skip a leading negation. -/
def negation (t : Item) : Parser (Bool × Item) := do
  if t.kind = some .negate then return (true, ← next) else return (false, t)

/-- Take a closing bracket in the first place for a character. -/
def leadingBracket (t : Item) : Parser (List Range × Item) := do
  if t.kind = some .classEnd then return (t.char.toList.map Range.ofChar, ← next) else return ([], t)

/-- Read a class up to its closing bracket. The token behind the opening one is in hand. -/
def characterClass (fuel : Nat) (t : Item) : Parser Tree := do
  let (negated, t) ← negation t
  let (first, t) ← leadingBracket t
  let ranges ← classItems fuel first t
  return .characters (if negated then Range.complement ranges else ranges)

/-! ## Quantifiers -/

/-- Read the digits in front and the number they make behind `n`, if there are any. -/
def number : Nat → Option Nat → Item → Parser (Option Nat × Item)
  | 0, _, _ => exhausted
  | fuel + 1, n, t => do
    if t.kind = some .digit then
      match t.char.bind fun c => Word.ofNat? (n.getD 0 * 10 + Bounds.digitValue c) with
      | some m => number fuel (some m) (← next)
      | none => fail .invalidRepeat
    else return (n, t)

/-- Read bounds up to their closing brace. The token behind the opening one is in hand. -/
def bounds (fuel : Nat) (t : Item) : Parser (Nat × Option Nat) := do
  let (min, t) ← number fuel none t
  let (max, t) ← greatest (min.getD 0) t
  if t.kind = some .repeatEnd then return (min.getD 0, max) else fail .unfinishedRepeat
where
  /-- Read the greatest number behind a comma. Without a comma it is the least one. -/
  greatest (min : Nat) (t : Item) : Parser (Option Nat × Item) := do
    if t.kind = some .comma then
      let (max, t) ← number fuel none (← next)
      if max.any (· < min) then fail .invalidRepeat else return (max, t)
    else return (some min, t)

/-- Read the quantifier behind an atom, if there is one. The token behind the atom is in hand. -/
def quantified (fuel : Nat) (tree : Tree) (t : Item) : Parser (Tree × Item) := do
  match t.kind with
  | some .oneOrMore => return (Tree.repeatOf tree 1 none, ← next)
  | some .zeroOrMore => return (Tree.repeatOf tree 0 none, ← next)
  | some .zeroOrOne => return (Tree.repeatOf tree 0 (some 1), ← next)
  | some .repeatBegin =>
    let (min, max) ← bounds fuel (← next)
    return (Tree.repeatOf tree min max, ← next)
  | _ => return (Tree.repeatOf tree 1 (some 1), t)

/-! ## Regular expressions -/

/-- The tokens from the one in hand on. -/
def Cursor.place (s : Cursor) (t : Item) : Tokens :=
  match t.kind, t.char with
  | some k, some c => .token k c s.scanner.position (.ofScanner s.scanner)
  | _, _ => .ended s.scanner.position

/-- Record the beginning of a turn. -/
def turn (calls : Nat) (t : Item) : Parser Unit :=
  modify fun s => { s with turns := ⟨s.depth, calls, s.place t⟩ :: s.turns }

/-- Whether a token ends a sequence. Outside of groups the end of the text does, and inside of them a closing
parenthesis. -/
def Closes (top : Bool) (k : Option Kind) : Prop :=
  k = some .alternative ∨ (k = none ∧ top) ∨ (k = some .groupEnd ∧ ¬ top)

instance (top : Bool) (k : Option Kind) : Decidable (Closes top k) := by
  unfold Closes
  infer_instance

mutual

/-- Read a choice behind its first branches, and the token that ends it. -/
def alternative : Nat → Nat → Bool → List Tree → Item → Parser (Tree × Item)
  | 0, _, _, _, _ => exhausted
  | fuel + 1, calls, top, branches, t => do
    let (tree, t) ← sequence (fuel + 1) calls top [] t
    if t.kind = some .alternative then alternative fuel calls top (branches ++ [tree]) (← next)
    else return (Tree.choiceOf (branches ++ [tree]), t)
termination_by fuel => (fuel, 2)

/-- Read a sequence behind its first terms, and the token that ends it. -/
def sequence : Nat → Nat → Bool → List Tree → Item → Parser (Tree × Item)
  | 0, _, _, _, _ => exhausted
  | fuel + 1, calls, top, terms, t => do
    turn calls t
    if Closes top t.kind then return (Tree.seqOf terms, t)
    else if t.kind = none then fail .unfinishedGroup
    else
      let tree ← atom (fuel + 1) calls t
      let (term, t) ← quantified fuel tree (← next)
      sequence fuel calls top (terms ++ [term]) t
termination_by fuel => (fuel, 1)

/-- Read an atom up to its last token. -/
def atom : Nat → Nat → Item → Parser Tree
  | 0, _, _ => exhausted
  | fuel + 1, calls, t => do
    match t.kind with
    | some .classBegin => characterClass fuel (← next)
    | some .groupBegin =>
      if (← get).depth = Regex.maxDepth then fail .nestingTooDeep
      else
        modify fun s => { s with depth := s.depth + 1 }
        -- Inside of a group only a closing parenthesis ends a choice.
        let (tree, _) ← alternative fuel (calls + 1) false [] (← next)
        modify fun s => { s with depth := s.depth - 1 }
        return tree
    | some .wildcard => return Tree.any
    | _ => literal t
termination_by fuel => (fuel, 0)

end

/-- Read a regular expression. -/
def regex (fuel : Nat) : Parser Tree := do
  let (tree, _) ← alternative fuel 1 true [] (← next)
  return tree

/-! ## Globs -/

/-- Read a glob behind its first elements. -/
def glob : Nat → List Tree → Parser Tree
  | 0, _ => exhausted
  | fuel + 1, elements => do
    let t ← next
    match t.kind with
    | none => return Tree.seqOf elements
    | some .classBegin => glob fuel (elements ++ [← characterClass fuel (← next)])
    | some .wildcard => glob fuel (elements ++ [Tree.any])
    | some .zeroOrMore => glob fuel (elements ++ [Tree.repeatOf Tree.any 0 none])
    | _ => glob fuel (elements ++ [← literal t])

/-! ## Patterns -/

/-- Read a pattern: the answer, and the state behind it. There is fuel for each character and for the end. -/
def parse (d : Dialect) (pattern : String) : Option (Except SyntaxError Tree × Cursor) :=
  let parser := match d with
    | .regex => regex (pattern.length + 1)
    | .glob => glob (pattern.length + 1) []
  parser.run.run { scanner := .ofString d.lexer pattern }

end Descent

end MaximalMunch
