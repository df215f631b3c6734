import MaximalMunch.Written

/-!
# Tags

Values for rules that mix numbers, flags and names. Tags of different kinds differ.
-/

namespace MaximalMunch

/-- A number, a flag or a name. -/
inductive Tag where
  | number (n : Int64)
  | flag (b : Bool)
  | name (s : String)
  deriving DecidableEq

instance : Written Tag :=
  ⟨fun
    | .number n => written n
    | .flag b => written b
    | .name s => written s⟩

end MaximalMunch
