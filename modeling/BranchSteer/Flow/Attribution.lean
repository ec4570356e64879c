import BranchSteer.Branch
import BranchSteer.Flow.Graph

/-!
Which bytes of the input reach which branches, and along which positions.

From each input vertex a search follows the edges in rounds: a round scans the edges out of all vertices
that the round before reached first. The first scanned edge of a branch gives the trace that is kept,
and since the rounds go by distance no other trace is shorter.
-/

namespace BranchSteer.Flow

abbrev Branches := Std.ExtTreeMap Nat Branch

def Branches.inTraceOrder (branches : Branches) : List Branch := branches.toList.map (·.2)

/-- The edge by which each vertex other than the start was reached first, and all edges in the order
in which they were scanned, newest first. -/
structure Search where
  parents : Std.ExtTreeMap Nat Edge
  scanned : List Edge

namespace Search

def empty : Search := ⟨∅, []⟩

def scanEdges (start : Nat) : List Edge → Search × List Nat → Search × List Nat
  | [], state => state
  | edge :: rest, (search, reached) =>
    let scanned := edge :: search.scanned
    if edge.target = start || search.parents.contains edge.target then
      scanEdges start rest (⟨search.parents, scanned⟩, reached)
    else
      scanEdges start rest
        (⟨search.parents.insert edge.target edge, scanned⟩, edge.target :: reached)

def scanRound (graph : Graph) (start : Nat) :
    List Nat → Search × List Nat → Search × List Nat
  | [], state => state
  | vertex :: rest, state =>
    scanRound graph start rest (scanEdges start (graph.outgoingEdges vertex) state)

def rounds (graph : Graph) (start : Nat) : Nat → List Nat → Search → Search
  | 0, _, search => search
  | _ + 1, [], search => search
  | count + 1, round, search =>
    let (search, reached) := scanRound graph start round (search, [])
    rounds graph start count reached.reverse search

/-- Each round but the last reaches a vertex, so there are no more rounds than vertices and one. -/
def startingAt (graph : Graph) (start : Nat) : Search :=
  rounds graph start (graph.vertices.size + 1) [start] empty

def traceBack (search : Search) (address : Nat) (start : Nat) :
    Nat → Edge → List Nat → Except Fault (List Nat)
  | 0, edge, _ => .error (.violation (.brokenTrace address edge.position))
  | bound + 1, edge, trace =>
    if edge.source = start then .ok (edge.position :: trace)
    else
      match search.parents[edge.source]? with
      | some parent => search.traceBack address start bound parent (edge.position :: trace)
      | none => .error (.violation (.brokenTrace address edge.position))

end Search

namespace Graph

def attributeScanned (graph : Graph) (search : Search) (address : Nat) (start : Nat) :
    List Edge → Std.ExtTreeSet Nat → Branches → Except Fault Branches
  | [], _, branches => .ok branches
  | edge :: rest, attributed, branches =>
    if attributed.contains edge.position then
      graph.attributeScanned search address start rest attributed branches
    else
      match branches[edge.position]? with
      | none => graph.attributeScanned search address start rest attributed branches
      | some branch =>
        match search.traceBack address start (graph.vertices.size + 1) edge [] with
        | .error fault => .error fault
        | .ok trace =>
          graph.attributeScanned search address start rest (attributed.insert edge.position)
            (branches.insert edge.position (branch.dependOn address trace))

def attributeInputs (graph : Graph) :
    List (Nat × Nat) → Branches → Except Fault Branches
  | [], branches => .ok branches
  | (address, start) :: rest, branches =>
    let search := Search.startingAt graph start
    match graph.attributeScanned search address start search.scanned.reverse ∅ branches with
    | .error fault => .error fault
    | .ok branches => graph.attributeInputs rest branches

def attribution (graph : Graph) (branches : Branches) : Except Fault Branches :=
  graph.attributeInputs graph.inputImports.toList branches

end Graph

end BranchSteer.Flow
