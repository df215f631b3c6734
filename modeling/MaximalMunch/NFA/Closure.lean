import Std.Data.TreeSet
import MaximalMunch.Counting
import MaximalMunch.NFA.Basic

/-!
# Silent closure

The states that a list of states reaches over silent edges alone, the list itself included.

- `NFA.SilentReach` : the relation, one silent edge after another
- `NFA.explore`     : the work list; `seen` holds the states handled so far
- `NFA.closure`     : the closed states in ascending order, which names a set of states by one list
-/

namespace MaximalMunch

namespace NFA

variable {V : Type}

/-- `t` is reached from `s` over zero or more silent edges. -/
inductive SilentReach (n : NFA V) : Nat → Nat → Prop where
  | refl (s : Nat) : SilentReach n s s
  | step {s t u : Nat} : t ∈ n.silent s → SilentReach n t u → SilentReach n s u

/-- How many states are not in `seen`. -/
def unseen (n : NFA V) (seen : Std.TreeSet Nat) : Nat :=
  (List.range n.size).countP fun q => !seen.contains q

theorem unseen_insert_lt {n : NFA V} {seen : Std.TreeSet Nat} {q : Nat} (hq : q < n.size)
    (h : seen.contains q = false) : n.unseen (seen.insert q) < n.unseen seen := by
  refine countP_lt_countP q ?_ (by simpa using hq) (by simp [h]) (by simp)
  intro a _ ha
  simp only [Std.TreeSet.contains_insert, Bool.not_or, Bool.and_eq_true] at ha
  exact ha.2

/-- Handle the pending states one after another. A state is handled once; numbers without a state are
passed over. -/
def explore (n : NFA V) (seen : Std.TreeSet Nat) : List Nat → Std.TreeSet Nat
  | [] => seen
  | q :: pending =>
    if _fresh : q < n.size ∧ seen.contains q = false then
      explore n (seen.insert q) (n.silent q ++ pending)
    else explore n seen pending
termination_by pending => (n.unseen seen, pending.length)
decreasing_by
  -- A fresh state is seen from now on; any other entry just leaves the list.
  · exact Prod.Lex.left _ _ (unseen_insert_lt _fresh.1 _fresh.2)
  · exact Prod.Lex.right _ (by simp)

/-- The states reached from `qs` over silent edges, in ascending order. -/
def closure (n : NFA V) (qs : List Nat) : List Nat := (n.explore ∅ qs).toList

/-! ## A closure is a set of states -/

theorem lt_size_of_contains_explore {n : NFA V} (seen : Std.TreeSet Nat) (pending : List Nat) {q : Nat}
    (hseen : ∀ s, seen.contains s = true → s < n.size)
    (hq : (n.explore seen pending).contains q = true) : q < n.size := by
  fun_induction explore n seen pending with
  | case1 seen => exact hseen q hq
  | case2 seen p pending h ih =>
    refine ih ?_ hq
    intro s hs
    rw [Std.TreeSet.contains_insert, Bool.or_eq_true] at hs
    rcases hs with hs | hs
    · have : p = s := by simpa using hs
      omega
    · exact hseen s hs
  | case3 seen p pending h ih => exact ih hseen hq

theorem closure_ascending (n : NFA V) (qs : List Nat) : (n.closure qs).Pairwise (· < ·) := by
  have h : (n.closure qs).Pairwise fun a b => compare a b = .lt := Std.TreeSet.ordered_toList
  exact h.imp fun hab => Nat.compare_eq_lt.1 hab

theorem lt_size_of_mem_closure {n : NFA V} {qs : List Nat} {q : Nat} (h : q ∈ n.closure qs) :
    q < n.size := by
  refine lt_size_of_contains_explore ∅ qs (by simp) ?_
  exact Std.TreeSet.mem_iff_contains.1 (Std.TreeSet.mem_toList.1 h)

theorem closure_sublist_range (n : NFA V) (qs : List Nat) :
    (n.closure qs).Sublist (List.range n.size) :=
  sublist_range_of_lt (closure_ascending n qs) fun _ h => lt_size_of_mem_closure h

end NFA

end MaximalMunch
