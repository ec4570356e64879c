import BranchSteer.Proofs.Attribution

/-!
Attribution misses nothing: a byte of the input is attributed to every branch that an edge behind its import
belongs to.
-/

namespace BranchSteer.Flow

namespace Graph

inductive Reaches (graph : Graph) (start : Nat) : Nat → Prop
  | start : Reaches graph start start
  | along {vertex : Nat} {edge : Edge} : Reaches graph start vertex →
      edge ∈ graph.outgoingEdges vertex → Reaches graph start edge.target

def Influences (graph : Graph) (start position : Nat) : Prop :=
  ∃ vertex, graph.Reaches start vertex ∧
    ∃ edge ∈ graph.outgoingEdges vertex, edge.position = position

theorem Reaches.mono {graph more : Graph} {start vertex : Nat}
    (edges : ∀ {vertex : Nat} {edge : Edge}, edge ∈ graph.outgoingEdges vertex →
      edge ∈ more.outgoingEdges vertex)
    (reaches : graph.Reaches start vertex) : more.Reaches start vertex := by
  induction reaches with
  | start => exact .start
  | along _ member ih => exact .along ih (edges member)

theorem Influences.mono {graph more : Graph} {start position : Nat}
    (edges : ∀ {vertex : Nat} {edge : Edge}, edge ∈ graph.outgoingEdges vertex →
      edge ∈ more.outgoingEdges vertex)
    (influences : graph.Influences start position) : more.Influences start position := by
  obtain ⟨vertex, reaches, edge, member, here⟩ := influences
  exact ⟨vertex, reaches.mono edges, edge, edges member, here⟩

theorem reaches_iff_exists_walk {graph : Graph} {start vertex : Nat} :
    graph.Reaches start vertex ↔ ∃ trace, graph.Walk start vertex trace := by
  constructor
  · intro reaches
    induction reaches with
    | start => exact ⟨[], .start⟩
    | along _ member ih =>
        obtain ⟨trace, walk⟩ := ih
        exact ⟨_, walk.along member⟩
  · rintro ⟨trace, walk⟩
    induction walk with
    | start => exact .start
    | along _ member ih => exact .along ih member

end Graph

def Attributed (address position : Nat) (branches : Branches) : Prop :=
  ∀ branch, branches[position]? = some branch → address ∈ branch.inputDependencies

/-- Whatever an imported byte influences depends on it. -/
theorem Graph.attribution_complete {graph : Graph} {base : Nat} {executions : List Execution}
    {before after : Branches} (follows : graph.Follows base executions)
    (done : graph.attribution before = .ok after) {address start position : Nat}
    (imported : graph.inputImports[address]? = some start)
    (influences : graph.Influences start position) : Attributed address position after := by
  obtain ⟨result, same, retold⟩ :=
    attribution_collected follows.rising (fun found => (follows.imports found).1) before
  rw [done, Except.ok.injEq] at same
  subst same
  obtain ⟨vertex, reaches, edge, member, here⟩ := influences
  obtain ⟨way, walk⟩ := reaches_iff_exists_walk.mp reaches
  intro branch found
  obtain ⟨_, _, collected⟩ := retold.origin found
  exact (collected.dependency address).mpr (Or.inr ⟨start,
    Std.ExtTreeMap.mem_toList_iff_getElem?_eq_some.mpr imported, _, vertex, way, edge, walk, member,
    here, rfl⟩)

end BranchSteer.Flow
