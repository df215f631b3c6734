import MaximalMunch.Compiler.Basic

/-!
# Calls on a compiler

Rules are added by calls, and some calls fail. A failure leaves the compiler usable, so any calls may follow
one another.

- `Compiler.Call`, `Compiler.call` : a call, the compiler behind it, and the error that it answers
- `Compiler.calls`                 : calls one after another
-/

namespace MaximalMunch

namespace Compiler

variable {V : Type}

/-- A call that adds to a compiler, or tries to. -/
inductive Call (V : Type) where
  | add (pattern : String) (value : V)
  | addAll (patterns : List (String × V))
  | addEndOfText (value : V)

/-- The call adds a value for the end of the text. -/
def Call.isEnd : Call V → Bool
  | .addEndOfText _ => true
  | _ => false

/-- The compiler behind a call, and the error that the call answers. -/
def call (c : Compiler V) : Call V → Compiler V × Option (CompileError V)
  | .add pattern value => c.add pattern value
  | .addAll ps => c.addAll ps
  | .addEndOfText value => (c.addEndOfText value, none)

/-- The compiler behind some calls, whether they fail or not. -/
def calls : Compiler V → List (Call V) → Compiler V
  | c, [] => c
  | c, k :: ks => calls (c.call k).1 ks

theorem calls_append (c : Compiler V) (ks ks' : List (Call V)) :
    c.calls (ks ++ ks') = (c.calls ks).calls ks' := by
  induction ks generalizing c with
  | nil =>
      rfl
  | cons k ks ih =>
      exact ih (c.call k).1

@[simp] theorem calls_concat (c : Compiler V) (ks : List (Call V)) (k : Call V) :
    c.calls (ks ++ [k]) = ((c.calls ks).call k).1 := calls_append c ks [k]

end Compiler

end MaximalMunch
