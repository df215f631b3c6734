import MaximalMunch.Scanner.Basic

/-!
# Calls on a scanner

Calls of `tryNext` and `next` may follow one another in any order.

- `Scanner.Call`, `Scanner.call` : a call, what it answers, and the scanner behind it
- `Scanner.calls`                : calls one after another, and all their answers
- `Scanner.captured`             : the characters that the answers captured
- `Scanner.reads`                : the code points that the calls read
-/

namespace MaximalMunch

namespace Scanner

/-- A call on a scanner. -/
inductive Call where
  | tryNext
  | next
  deriving DecidableEq

variable {V : Type}

/-- What a call answers, and the scanner behind it. -/
def call (s : Scanner V) : Call → Option (Match V) × Scanner V
  | .tryNext => s.tryNext
  | .next => s.next

/-- A call and what it answered. -/
abbrev Answer (V : Type) := Call × Option (Match V)

/-- Calls one after another: their answers, and the scanner behind the last one. -/
def calls (s : Scanner V) : List Call → List (Answer V) × Scanner V
  | [] => ([], s)
  | k :: ks =>
    let later := (s.call k).2.calls ks
    ((k, (s.call k).1) :: later.1, later.2)

/-- The characters that a call captured. -/
def captureOf (found : Option (Match V)) : List Char := found.elim [] fun m => m.capture.toList

/-- The characters that all calls captured. -/
def captured (as : List (Answer V)) : List Char := as.flatMap fun a => captureOf a.2

@[simp] theorem captured_nil : captured ([] : List (Answer V)) = [] := rfl

@[simp] theorem captured_concat (as : List (Answer V)) (a : Answer V) :
    captured (as ++ [a]) = captured as ++ captureOf a.2 := by
  simp [captured]

/-! ## What calls read -/

/-- The call answers nothing without a look at the text, as iteration has come to its end or the scanner is
exhausted. -/
def idle (s : Scanner V) : Call → Bool
  | .tryNext => s.exhausted
  | .next => s.stalled || s.exhausted

/-- The code points that a call reads. -/
def readBy (s : Scanner V) (k : Call) : List Int := if s.idle k then [] else s.walk.fresh.reverse

/-- The code points that calls read one after another. -/
def reads (s : Scanner V) : List Call → List Int
  | [] => []
  | k :: ks => s.readBy k ++ (s.call k).2.reads ks

end Scanner

end MaximalMunch
