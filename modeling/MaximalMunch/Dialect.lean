/-!
# Dialects

The two languages in which patterns are written.
-/

namespace MaximalMunch

/-- A pattern language. -/
inductive Dialect where
  | regex
  | glob
  deriving DecidableEq, Repr

end MaximalMunch
