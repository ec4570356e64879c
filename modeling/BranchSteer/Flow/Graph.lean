import BranchSteer.Instruction
import BranchSteer.Position

/-!
The data flow of one tainting phase.

A vertex is a version of an operand: each write makes a new one, and an operand that is read before it
was written is imported. An edge leads from what an execution read to what it wrote, and tells the
position of that execution. Sources are looked up before any destination gets its new version, so every
edge leads to a vertex with a higher number than its source.
-/

namespace BranchSteer.Flow

/-- A version of an operand. `sources` are the vertices that it was computed from. -/
structure Vertex where
  operand : Operand
  imported : Bool
  sources : List Nat
deriving DecidableEq, Repr

structure Edge where
  source : Nat
  target : Nat
  position : Nat
deriving DecidableEq, Repr

structure Graph where
  input : InputBuffer
  vertices : Array Vertex
  edges : Array Edge
  outgoing : Std.ExtTreeMap Nat (List Edge)
  current : Std.ExtTreeMap Operand Nat
  inputImports : Std.ExtTreeMap Nat Nat
  decisions : Std.ExtTreeMap Nat (List Edge)

namespace Graph

def empty (input : InputBuffer) : Graph := ⟨input, #[], #[], ∅, ∅, ∅, ∅⟩

def addVertex (graph : Graph) (operand : Operand) (imported : Bool) (sources : List Nat) :
    Graph :=
  let vertex := graph.vertices.size
  { graph with
    vertices := graph.vertices.push ⟨operand, imported, sources⟩
    current := graph.current.insert operand vertex }

def noteImport (graph : Graph) (operand : Operand) (vertex : Nat) : Graph :=
  match operand.address? with
  | some address =>
    if graph.input.contains address then
      { graph with inputImports := graph.inputImports.insert address vertex }
    else graph
  | none => graph

def versionOf (graph : Graph) (operand : Operand) : Nat × Graph :=
  match graph.current[operand]? with
  | some vertex => (vertex, graph)
  | none =>
    let vertex := graph.vertices.size
    (vertex, (graph.addVertex operand true []).noteImport operand vertex)

def versionsOf (graph : Graph) : List Operand → List Nat × Graph
  | [] => ([], graph)
  | operand :: rest =>
    let (vertex, graph) := graph.versionOf operand
    let (vertices, graph) := graph.versionsOf rest
    (vertex :: vertices, graph)

def addVersions (graph : Graph) (sources : List Nat) (operands : List Operand) : Graph :=
  operands.foldl (fun graph operand => graph.addVertex operand false sources) graph

def newest (graph : Graph) (count : Nat) : List Nat :=
  List.range' (graph.vertices.size - count) count

def addEdge (graph : Graph) (edge : Edge) : Graph :=
  { graph with
    edges := graph.edges.push edge
    outgoing := graph.outgoing.insert edge.source
      (edge :: graph.outgoing[edge.source]?.getD []) }

def edgesBetween (sources destinations : List Nat) (position : Nat) : List Edge :=
  sources.flatMap fun source => destinations.map fun target => ⟨source, target, position⟩

def noteBranch (graph : Graph) (position : Nat) (edges : List Edge) : Graph :=
  { graph with
    decisions :=
      graph.decisions.insert position (graph.decisions[position]?.getD [] ++ edges) }

def propagate (graph : Graph) (instruction : Instruction) (execution : Execution)
    (position : Nat) : Graph :=
  let (sources, graph) := graph.versionsOf (instruction.sources execution).toList
  let written := (instruction.destinations execution).toList
  let graph := graph.addVersions sources written
  let edges := edgesBetween sources (graph.newest written.length) position
  let graph := edges.foldl addEdge graph
  if instruction.isBranch then graph.noteBranch position edges else graph

def outgoingEdges (graph : Graph) (vertex : Nat) : List Edge :=
  graph.outgoing[vertex]?.getD []

def sourcesOf (graph : Graph) (vertex : Nat) : List Nat :=
  match graph.vertices[vertex]? with
  | some vertex => vertex.sources
  | none => []

def ancestorsWithin (graph : Graph) : Nat → List Nat → Std.ExtTreeSet Nat → Std.ExtTreeSet Nat
  | 0, _, found => found
  | _ + 1, [], found => found
  | bound + 1, vertex :: pending, found =>
    if found.contains vertex then graph.ancestorsWithin bound pending found
    else
      graph.ancestorsWithin bound (graph.sourcesOf vertex ++ pending) (found.insert vertex)

/-- The vertices and all that they were computed from. Each vertex makes its sources pending once, and
there is an edge for each of them. -/
def ancestors (graph : Graph) (vertices : List Nat) : Std.ExtTreeSet Nat :=
  graph.ancestorsWithin (vertices.length + graph.edges.size) vertices ∅

def importedAddress? (graph : Graph) (vertex : Nat) : Option Nat :=
  match graph.vertices[vertex]? with
  | some vertex => if vertex.imported then vertex.operand.address? else none
  | none => none

/-- All imported bytes that the conditional branch at a position depends on, whether they belong to
the input or not. -/
def importsBehind (graph : Graph) (position : Nat) : Std.ExtTreeSet Nat :=
  let edges := graph.decisions[position]?.getD []
  Std.ExtTreeSet.ofList
    ((graph.ancestors (edges.map Edge.source)).toList.filterMap graph.importedAddress?)

/-- The vertices that edges lead to from a start. Edges into a vertex are older than those out of it,
so one pass in order of creation finds them all. -/
def reachable (graph : Graph) (start : Nat) : Std.ExtTreeSet Nat :=
  graph.edges.foldl (fun reached edge =>
    if reached.contains edge.source then reached.insert edge.target else reached)
    (Std.ExtTreeSet.ofList [start])

def reachesBranch (graph : Graph) (address : Nat) (position : Nat) : Bool :=
  match graph.inputImports[address]? with
  | none => false
  | some start =>
    let reached := graph.reachable start
    (graph.decisions[position]?.getD []).any fun edge => reached.contains edge.target

def isInputImport (graph : Graph) (vertex : Nat) : Bool :=
  match graph.importedAddress? vertex with
  | some address => graph.inputImports[address]? = some vertex
  | none => false

end Graph

end BranchSteer.Flow
