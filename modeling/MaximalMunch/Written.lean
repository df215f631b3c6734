import MaximalMunch.Text.Quoted

/-!
# Written values

A pattern stands for a value. Any type with decidable equality serves; `Written` says how its values appear
in messages and diagrams. Names are quoted, so that they cannot be taken for numbers or flags.
-/

namespace MaximalMunch

/-- A type whose values have a text for messages and diagrams. -/
class Written (V : Type) where
  written : V → String

export Written (written)

instance : Written Int64 := ⟨fun n => toString n.toInt⟩

instance : Written Bool := ⟨fun b => if b then "true" else "false"⟩

instance : Written String := ⟨Text.quoted⟩

end MaximalMunch
