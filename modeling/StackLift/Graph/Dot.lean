import StackLift.Graph.Basic

/-!
# Drawing graphs

The graph in the DOT language: control edges solid, data inputs dashed.

Text inside quotes is escaped by replacing one character after the other throughout. Backslashes
come first, so that no replacement is replaced again.
-/
namespace StackLift

namespace Dot

/-- Every `c` becomes `r`. -/
def replace (c : Char) (r : List Char) (s : List Char) : List Char :=
  s.flatMap fun d => if d = c then r else [d]

def escapeChars (s : List Char) : List Char :=
  let s := replace '\\' ['\\', '\\'] s
  let s := replace '"' ['\\', '"'] s
  let s := replace '\n' ['\\', 'n'] s
  let s := replace '\r' [] s
  let s := replace '<' ['\\', '<'] s
  replace '>' ['\\', '>'] s

/-- Makes `s` safe between double quotes. -/
def escape (s : String) : String := String.ofList (escapeChars s.toList)

def quoted (s : String) : String := "\"" ++ escape s ++ "\""

def nodeLine (id : NodeId) (n : Node) : String :=
  let shape := if n.kind.isControl then "box" else "ellipse"
  "  " ++ id.text ++ " [label=\"" ++ id.text ++ " " ++ escape n.kind.text ++ "\", shape=" ++
    shape ++ "];\n"

def edgeLine (e : Edge) : String :=
  "  " ++ e.source.text ++ " -> " ++ e.target.text ++ " [label=" ++ quoted e.kind.label ++ "];\n"

def inputLines (id : NodeId) (n : Node) : String :=
  String.join (n.inputs.map fun i =>
    "  " ++ i.text ++ " -> " ++ id.text ++ " [style=dashed, color=gray];\n")

end Dot

namespace Graph

def toDot (g : Graph) (title : String) : String :=
  "digraph " ++ Dot.quoted title ++ " \x7b\n" ++
    "  node [shape=box, fontname=\"monospace\"];\n" ++
    String.join (g.liveNodes.map fun (id, n) => Dot.nodeLine id n) ++
    String.join (g.liveEdges.map Dot.edgeLine) ++
    String.join (g.liveNodes.map fun (id, n) => Dot.inputLines id n) ++ "\x7d\n"

end Graph

end StackLift
