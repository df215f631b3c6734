import MaximalMunch.Pattern.Class
import MaximalMunch.Tree.Basic

/-!
# Globs

A glob is a sequence of characters, character classes, wildcards for one character, and stars for any run
of characters. A token without a meaning of its own stands for its character.
-/

namespace MaximalMunch

namespace Glob

open Tokens

/-- The elements of a glob up to its end. -/
def elements : Tokens → Except SyntaxError (List Tree)
  | .ended _ => .ok []
  | .failed p => .error ⟨.unrecognizedCharacter, p⟩
  | .token .classBegin _ _ ts =>
    match CharacterClass.readShorter ts with
    | ⟨.error e, _⟩ => .error e
    | ⟨.ok c, _h⟩ => (elements c.rest).map (.characters c.ranges :: ·)
  | .token .wildcard _ _ ts => (elements ts).map (Tree.any :: ·)
  | .token .zeroOrMore _ _ ts => (elements ts).map (Tree.repeatOf Tree.any 0 none :: ·)
  | .token _ c _ ts => (elements ts).map (Tree.char c :: ·)
termination_by ts => ts.length
decreasing_by
  · have := _h _ rfl
    simp only [length]
    omega
  all_goals
    simp only [length]
    omega

theorem elements_class (c : Char) (p : Nat) (ts : Tokens) :
    elements (.token .classBegin c p ts) =
      (CharacterClass.read ts).bind fun r => (elements r.rest).map (.characters r.ranges :: ·) := by
  rw [elements]
  split <;> rename_i h <;> rw [show CharacterClass.read ts = _ from congrArg Subtype.val h] <;> rfl

/-- The tree of a glob. -/
def parse (ts : Tokens) : Except SyntaxError Tree := (elements ts).map Tree.seqOf

end Glob

end MaximalMunch
