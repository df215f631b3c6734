/-!
# Words

Bounds and sizes are counted in words of 64 bits. An operation on words yields nothing if its result does
not fit.
-/

namespace MaximalMunch

namespace Word

/-- The first number that is too large for a word, `2 ^ 64`. -/
def limit : Nat := 0x10000000000000000

/-- A number, if it fits. -/
@[irreducible] def ofNat? (n : Nat) : Option Nat := if n < limit then some n else none

def add? (m n : Nat) : Option Nat := ofNat? (m + n)

def mul? (m n : Nat) : Option Nat := ofNat? (m * n)

theorem ofNat?_eq_some_iff {n k : Nat} : ofNat? n = some k ↔ n < limit ∧ k = n := by
  unfold ofNat?
  by_cases h : n < limit <;> simp [h, eq_comm]

theorem ofNat?_eq_none_iff {n : Nat} : ofNat? n = none ↔ limit ≤ n := by
  unfold ofNat?
  by_cases h : n < limit <;> simp only [h, if_true, if_false, reduceCtorEq, false_iff, true_iff] <;> omega

end Word

end MaximalMunch
