import BranchSteer.Flow.Graph

/-!
The graph in the language of Graphviz.
-/

namespace BranchSteer.Flow.Graph

/-- Quotes and backslashes are escaped, and a line break stands as the mark of a left-aligned line. -/
def escapeLabel (label : List Char) : List Char :=
  label.flatMap fun character =>
    if character = '"' || character = '\\' then ['\\', character]
    else if character = '\n' then ['\\', 'l']
    else [character]

def labelText (label : String) : String :=
  " [ label = \"" ++ String.ofList (escapeLabel label.toList) ++ "\" ]\n"

def vertexLines (graph : Graph) : List String :=
  graph.vertices.toList.mapIdx fun index vertex =>
    "    " ++ toString index ++ labelText vertex.operand.text

def edgeLine (edge : Edge) : String :=
  "    " ++ toString edge.source ++ " -> " ++ toString edge.target ++
    labelText (toString edge.position)

def dot (graph : Graph) : String :=
  "digraph \x7b\n" ++ String.join graph.vertexLines ++
    String.join (graph.edges.toList.map edgeLine) ++ "\x7d\n"

end BranchSteer.Flow.Graph
