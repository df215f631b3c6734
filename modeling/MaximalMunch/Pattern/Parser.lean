import MaximalMunch.Pattern.Glob
import MaximalMunch.Pattern.Regex
import MaximalMunch.Token.Reader

/-!
# Patterns

The tree of a pattern text, by dialect.
-/

namespace MaximalMunch

namespace Dialect

/-- The tree of the tokens of a pattern. -/
def treeOf : Dialect → Tokens → Except SyntaxError Tree
  | regex => Regex.parse
  | glob => Glob.parse

/-- The tree of a pattern text. -/
def parse (d : Dialect) (pattern : String) : Except SyntaxError Tree := d.treeOf (d.tokens pattern)

end Dialect

end MaximalMunch
