import MaximalMunch.Compiler.Calls
import MaximalMunch.Proofs.RuleSet

/-!
# What calls add

Calls that fail add nothing, or the patterns before the first one that is refused.

- `Compiler.accepted`                  : the patterns that `addAll` adds
- `Compiler.added`, `Compiler.rulesOf` : the rules that calls add
- `Collects.calls`                     : the compiler behind any calls has collected just these rules
-/

namespace MaximalMunch

namespace Compiler

variable {V : Type}

/-- The patterns that `addAll` adds: those before the first one that is refused. -/
def accepted (c : Compiler V) : List (String × V) → List (String × V)
  | [] => []
  | p :: ps =>
    match c.add p.1 p.2 with
    | (_, some _) => []
    | (c, none) => p :: accepted c ps

/-- The rules that a call adds. -/
def added (c : Compiler V) : Call V → List (Rule V)
  | .add pattern value => (c.accepted [(pattern, value)]).map fun p => .pattern p.1 p.2
  | .addAll ps => (c.accepted ps).map fun p => .pattern p.1 p.2
  | .addEndOfText value => [.endOfText value]

/-- The rules that some calls add. -/
def rulesOf : Compiler V → List (Call V) → List (Rule V)
  | _, [] => []
  | c, k :: ks => c.added k ++ rulesOf (c.call k).1 ks

/-- One pattern is added as a list of one pattern is. -/
theorem call_add (c : Compiler V) (pattern : String) (value : V) :
    c.call (.add pattern value) = c.addAll [(pattern, value)] := by
  rcases c.add_cases pattern value with ⟨e, hadd⟩ | ⟨c', hadd⟩ <;> simp [call, addAll, hadd]

/-- A failure of `addAll` leaves what the patterns before it make of the compiler, which then refuses the
next pattern. -/
theorem addAll_of_error {c : Compiler V} {ps : List (String × V)} {e : CompileError V}
    (h : (c.addAll ps).2 = some e) :
    ∃ p after, ps = c.accepted ps ++ p :: after ∧
      c.addAll (c.accepted ps) = ((c.addAll ps).1, none) ∧
      ((c.addAll ps).1.add p.1 p.2).2 = some e := by
  induction ps generalizing c with
  | nil =>
      exact absurd h (by simp [addAll])
  | cons p ps ih =>
      rw [addAll] at h ⊢
      rw [accepted]
      rcases c.add_cases p.1 p.2 with ⟨e', hadd⟩ | ⟨c', hadd⟩
      · rw [hadd] at h ⊢
        exact ⟨p, ps, rfl, rfl, (congrArg Prod.snd hadd).trans h⟩
      · rw [hadd] at h ⊢
        rcases ih h with ⟨q, after, hps, hall, hq⟩
        refine ⟨q, after, congrArg (p :: ·) hps, ?_, hq⟩
        rw [addAll, hadd]
        exact hall

/-- A value for the end of the text is never refused. -/
theorem endOfText_mem_rulesOf_iff {c : Compiler V} {ks : List (Call V)} {value : V} :
    .endOfText value ∈ c.rulesOf ks ↔ .addEndOfText value ∈ ks := by
  induction ks generalizing c with
  | nil =>
      simp [rulesOf]
  | cons k ks ih =>
      cases k <;> simp [rulesOf, added, ih]

variable {d : Dialect} {rules : List (Rule V)} {c : Compiler V}

/-- The patterns before a failure have become rules. -/
theorem Collects.accepted (h : Collects d rules c) (ps : List (String × V)) :
    Collects d (rules ++ (c.accepted ps).map fun p => .pattern p.1 p.2) (c.addAll ps).1 := by
  induction ps generalizing rules c with
  | nil =>
      simpa [Compiler.accepted, Compiler.addAll] using h
  | cons p ps ih =>
      rw [Compiler.accepted, Compiler.addAll]
      rcases c.add_cases p.1 p.2 with ⟨e, hadd⟩ | ⟨c', hadd⟩
      · simpa [hadd] using h
      · simpa [hadd] using ih (.pattern h hadd)

theorem Collects.call (h : Collects d rules c) (k : Call V) :
    Collects d (rules ++ c.added k) (c.call k).1 := by
  cases k with
  | add pattern value =>
      rw [call_add]
      exact h.accepted [(pattern, value)]
  | addAll ps =>
      exact h.accepted ps
  | addEndOfText value =>
      exact h.endOfText

/-- A compiler behind any calls has collected the rules that these have added. -/
theorem Collects.calls (h : Collects d rules c) (ks : List (Call V)) :
    Collects d (rules ++ c.rulesOf ks) (c.calls ks) := by
  induction ks generalizing rules c with
  | nil =>
      simpa [rulesOf, Compiler.calls] using h
  | cons k ks ih =>
      simpa [rulesOf, Compiler.calls] using ih (h.call k)

theorem collects_calls (d : Dialect) (ks : List (Call V)) :
    Collects d ((new d).rulesOf ks) ((new d).calls ks) := by
  simpa using (Collects.new (V := V)).calls ks

end Compiler

end MaximalMunch
