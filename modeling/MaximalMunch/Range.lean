import MaximalMunch.CodePoint

/-!
# Ranges of code points

A `Range` holds the code points from `lo` to `hi`, both included. A list of ranges, in any order and
with any overlaps, stands for the union of its members.

- `Range.Covers`    : membership of a code point
- `Range.any`       : what a wildcard matches
- `complement`      : the ascending list of ranges that covers what a list leaves out
-/

namespace MaximalMunch

/-- The code points from `lo` to `hi`. -/
structure Range where
  lo : Int
  hi : Int
  deriving DecidableEq, Repr

namespace Range

/-- The range of one code point. -/
def point (p : Int) : Range := ⟨p, p⟩

def ofChar (c : Char) : Range := point (CodePoint.ofChar c)

/-- All code points that a pattern can match. -/
def any : Range := ⟨0, CodePoint.greatest⟩

def Covers (r : Range) (p : Int) : Prop := r.lo ≤ p ∧ p ≤ r.hi

instance (r : Range) (p : Int) : Decidable (r.Covers p) :=
  inferInstanceAs (Decidable (_ ∧ _))

/-- A range with at least one code point. -/
def Proper (r : Range) : Prop := r.lo ≤ r.hi

instance (r : Range) : Decidable r.Proper := inferInstanceAs (Decidable (_ ≤ _))

theorem covers_point_iff {p q : Int} : (point p).Covers q ↔ q = p := by
  simp only [Covers, point]; omega

/-! ## Complement -/

/-- The gaps before, between and behind ranges that ascend by their first code points; `next` is the
first code point not yet accounted for. -/
def gaps (next : Int) : List Range → List Range
  | [] => if next ≤ CodePoint.greatest then [⟨next, CodePoint.greatest⟩] else []
  | r :: rs =>
    if next < r.lo then ⟨next, r.lo - 1⟩ :: gaps (max next (r.hi + 1)) rs
    else gaps (max next (r.hi + 1)) rs

/-- The code points from 0 to `CodePoint.greatest` that no range of the list covers. -/
def complement (rs : List Range) : List Range :=
  gaps 0 (rs.mergeSort fun a b => decide (a.lo ≤ b.lo))

end Range

end MaximalMunch
