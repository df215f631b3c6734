import MaximalMunch.Matcher
import MaximalMunch.Range.Display
import MaximalMunch.Written

/-!
# Diagrams

A matcher as the text of a directed graph: a line for each state, then a line for each edge, in the order of
the states. The start is a blue circle; an accepting state is red and bears its number and, on a line of
its own, its value.
-/

namespace MaximalMunch

namespace Diagram

variable {V : Type} [Written V]

/-- An attribute with a quoted text. -/
def label (text : String) : String := "label=\"" ++ text ++ "\""

/-- The name of a state. -/
def node (q : Nat) : String := s!"node_{q}"

/-- A line inside the graph: what it is about, and its attributes. -/
def line (subject : String) (attributes : List String) : String :=
  "  " ++ subject ++ " [" ++ String.intercalate ", " attributes ++ "];\n"

/-- The line of a state. A state that both starts and accepts has the attributes of both. -/
def stateLine (d : DFA V) (q : Nat) (s : DFA.State V) : String :=
  let first := if q = d.start then ["shape=circle", "color=blue", "penwidth=3"] else []
  let accepting :=
    match s.value with
    | some v => ["color=red", "penwidth=3", label (s!"{q}\n" ++ Text.escaped (written v))]
    | none => []
  line (node q) (label (toString q) :: first ++ accepting)

/-- The line of an edge. -/
def edgeLine (q : Nat) (e : Edge) : String :=
  line (node q ++ " -> " ++ node e.target) [label e.toRange.display]

/-- The graph of an automaton. -/
def text (d : DFA V) (title : String) : String :=
  let states := d.states.toList.zipIdx
  "digraph \x7b\n" ++ "  " ++ label title ++ ";\n" ++ "  rankdir=LR;\n" ++
    String.join (states.map fun (s, q) => stateLine d q s) ++
    String.join (states.flatMap fun (s, q) => s.edges.toList.map (edgeLine q)) ++ "\x7d\n"

end Diagram

/-- The diagram of a matcher. -/
def Matcher.diagram {V : Type} [Written V] (m : Matcher V) (title : String) : String :=
  Diagram.text m.automaton title

end MaximalMunch
