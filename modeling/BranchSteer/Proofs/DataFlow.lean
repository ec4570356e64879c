import BranchSteer.Flow.Attribution
import BranchSteer.Proofs.WriteLog

/-!
What the data flow graph tells about the recorded executions. Edges lead upwards, and along a path their
positions never decrease, so whatever an imported byte of the input reaches was executed no earlier than
the import. A byte is imported where it is read before anything else touched it.
-/

namespace BranchSteer

namespace Instruction

theorem mem_operandsOf (names : Std.ExtTreeSet String) (accesses : List MemoryRange)
    (address : Nat) : Operand.memory address ∈ operandsOf names accesses ↔
      address ∈ accesses.flatMap MemoryRange.addresses := by
  simp only [operandsOf, Std.ExtTreeSet.mem_insertMany_list, Std.ExtTreeSet.mem_ofList,
    List.contains_iff_mem, List.mem_map]
  constructor
  · rintro (⟨name, _, impossible⟩ | ⟨other, member, same⟩)
    · cases impossible
    · cases same
      exact member
  · exact fun member => Or.inr ⟨address, member, rfl⟩

theorem mem_sources (instruction : Instruction) (execution : Execution) (address : Nat) :
    Operand.memory address ∈ instruction.sources execution ↔ execution.Reads address :=
  mem_operandsOf _ _ _

theorem mem_destinations (instruction : Instruction) (execution : Execution) (address : Nat) :
    Operand.memory address ∈ instruction.destinations execution ↔ execution.Writes address := by
  unfold destinations
  split
  · rw [Std.ExtTreeSet.mem_insert, mem_operandsOf, Std.LawfulEqOrd.compare_eq_iff_eq]
    simp [Execution.Writes]
  · exact mem_operandsOf _ _ _

end Instruction

namespace Flow.Graph

theorem mem_outgoingEdges_addEdge (graph : Graph) (added : Edge) (vertex : Nat) (edge : Edge) :
    edge ∈ (graph.addEdge added).outgoingEdges vertex ↔
      edge ∈ graph.outgoingEdges vertex ∨ edge = added ∧ added.source = vertex := by
  simp only [outgoingEdges, addEdge, Std.ExtTreeMap.getElem?_insert, Nat.compare_eq_eq]
  by_cases here : added.source = vertex
  · simp [here, or_comm]
  · simp [here]

theorem mem_outgoingEdges_addEdges (graph : Graph) (added : List Edge) (vertex : Nat) (edge : Edge) :
    edge ∈ (added.foldl addEdge graph).outgoingEdges vertex ↔
      edge ∈ graph.outgoingEdges vertex ∨ edge ∈ added ∧ edge.source = vertex := by
  induction added generalizing graph with
  | nil => simp
  | cons first rest ih =>
      rw [List.foldl_cons, ih, mem_outgoingEdges_addEdge, or_assoc]
      apply or_congr Iff.rfl
      constructor
      · rintro (⟨rfl, here⟩ | ⟨member, here⟩)
        · exact ⟨List.mem_cons_self, here⟩
        · exact ⟨List.mem_cons_of_mem _ member, here⟩
      · rintro ⟨member, here⟩
        rcases List.mem_cons.mp member with rfl | later
        · exact Or.inl ⟨rfl, here⟩
        · exact Or.inr ⟨later, here⟩

theorem addEdges_frame (graph : Graph) (added : List Edge) :
    (added.foldl addEdge graph).input = graph.input ∧
      (added.foldl addEdge graph).vertices = graph.vertices ∧
      (added.foldl addEdge graph).current = graph.current ∧
      (added.foldl addEdge graph).inputImports = graph.inputImports := by
  induction added generalizing graph with
  | nil => exact ⟨rfl, rfl, rfl, rfl⟩
  | cons edge rest ih => exact ih (graph.addEdge edge)

def Bound (graph : Graph) : Prop :=
  ∀ {operand : Operand} {vertex : Nat}, graph.current[operand]? = some vertex →
    vertex < graph.vertices.size

structure Extends (before after : Graph) (operands : List Operand) : Prop where
  input : after.input = before.input
  size : before.vertices.size ≤ after.vertices.size
  outgoing : after.outgoing = before.outgoing
  bound : Bound after
  known : ∀ operand, operand ∈ after.current ↔ operand ∈ before.current ∨ operand ∈ operands
  imports : ∀ {address vertex : Nat}, after.inputImports[address]? = some vertex →
    before.inputImports[address]? = some vertex ∨
      before.vertices.size ≤ vertex ∧ vertex < after.vertices.size ∧
        before.input.contains address ∧ Operand.memory address ∉ before.current ∧
        Operand.memory address ∈ operands

namespace Extends

theorem refl {graph : Graph} (bound : Bound graph) : Extends graph graph [] :=
  ⟨rfl, Nat.le_refl _, rfl, bound, by simp, Or.inl⟩

theorem trans {before middle after : Graph} {first second : List Operand}
    (one : Extends before middle first) (two : Extends middle after second) :
    Extends before after (first ++ second) := by
  refine ⟨two.input.trans one.input, Nat.le_trans one.size two.size, two.outgoing.trans one.outgoing,
    two.bound, fun operand => ?_, fun found => ?_⟩
  · rw [two.known, one.known, List.mem_append, or_assoc]
  · have sizes := two.size
    rcases two.imports found with old | ⟨above, below, inside, fresh, member⟩
    · rcases one.imports old with older | ⟨above, below, inside, fresh, member⟩
      · exact Or.inl older
      · exact Or.inr ⟨above, by omega, inside, fresh, List.mem_append_left _ member⟩
    · rw [one.known, not_or] at fresh
      have sizes := one.size
      exact Or.inr ⟨by omega, below, one.input ▸ inside, fresh.1, List.mem_append_right _ member⟩

end Extends

theorem addVertex_extends {graph : Graph} (bound : Bound graph) (operand : Operand) (imported : Bool)
    (sources : List Nat) : Extends graph (graph.addVertex operand imported sources) [operand] := by
  refine ⟨rfl, by simp [addVertex], rfl, ?_, fun other => ?_, Or.inl⟩
  · intro other vertex found
    simp only [addVertex, Std.ExtTreeMap.getElem?_insert, Array.size_push] at found ⊢
    split at found
    · simp only [Option.some.injEq] at found
      omega
    · exact Nat.lt_succ_of_lt (bound found)
  · simp only [addVertex, Std.ExtTreeMap.mem_insert, Std.LawfulEqOrd.compare_eq_iff_eq,
      List.mem_singleton]
    rw [or_comm, eq_comm]

theorem versionOf_extends {graph : Graph} (bound : Bound graph) (operand : Operand) :
    Extends graph (graph.versionOf operand).2 [operand] ∧
      (graph.versionOf operand).1 < (graph.versionOf operand).2.vertices.size := by
  unfold versionOf
  split
  · rename_i vertex found
    refine ⟨⟨rfl, Nat.le_refl _, rfl, bound, fun other => ?_, Or.inl⟩, bound found⟩
    have member : operand ∈ graph.current := by
      rw [Std.ExtTreeMap.mem_iff_isSome_getElem?, found, Option.isSome_some]
    constructor
    · exact Or.inl
    · rintro (known | same)
      · exact known
      · exact List.mem_singleton.mp same ▸ member
  · rename_i missing
    have added := addVertex_extends bound operand true []
    have fresh : operand ∉ graph.current := by
      rw [Std.ExtTreeMap.mem_iff_isSome_getElem?, missing]
      simp
    have size : (graph.addVertex operand true []).vertices.size = graph.vertices.size + 1 := by
      simp [addVertex]
    simp only [noteImport]
    split
    · rename_i address here
      split
      · rename_i inside
        refine ⟨⟨added.input, added.size, added.outgoing, added.bound, added.known, ?_⟩, ?_⟩
        · intro other vertex found
          simp only [Std.ExtTreeMap.getElem?_insert, Nat.compare_eq_eq] at found
          split at found
          · rename_i same
            simp only [Option.some.injEq] at found
            subst same found
            have shape : operand = .memory address := by
              cases operand <;> simp_all [Operand.address?]
            refine Or.inr ⟨Nat.le_refl _, by simp only [size]; omega, inside, shape ▸ fresh, ?_⟩
            exact List.mem_singleton.mpr shape.symm
          · exact Or.inl found
        · simp only [size]
          omega
      · exact ⟨added, by omega⟩
    · exact ⟨added, by omega⟩

theorem versionsOf_extends {graph : Graph} (bound : Bound graph) (operands : List Operand) :
    Extends graph (graph.versionsOf operands).2 operands ∧
      ∀ vertex ∈ (graph.versionsOf operands).1,
        vertex < (graph.versionsOf operands).2.vertices.size := by
  induction operands generalizing graph with
  | nil => exact ⟨Extends.refl bound, by simp [versionsOf]⟩
  | cons operand rest ih =>
      obtain ⟨first, version⟩ := versionOf_extends bound operand
      obtain ⟨others, versions⟩ := ih first.bound
      refine ⟨first.trans others, ?_⟩
      simp only [versionsOf, List.forall_mem_cons]
      exact ⟨Nat.lt_of_lt_of_le version others.size, versions⟩

theorem addVersions_extends {graph : Graph} (bound : Bound graph) (sources : List Nat)
    (operands : List Operand) :
    Extends graph (graph.addVersions sources operands) operands ∧
      (graph.addVersions sources operands).vertices.size =
        graph.vertices.size + operands.length ∧
      (graph.addVersions sources operands).inputImports = graph.inputImports := by
  induction operands generalizing graph with
  | nil => exact ⟨Extends.refl bound, rfl, rfl⟩
  | cons operand rest ih =>
      have first := addVertex_extends bound operand false sources
      obtain ⟨others, size, imports⟩ := ih first.bound
      refine ⟨first.trans others, ?_, imports⟩
      simp only [addVersions, List.foldl_cons] at size ⊢
      rw [size]
      simp only [addVertex, Array.size_push, List.length_cons]
      omega

theorem mem_newest {graph : Graph} {count vertex : Nat} (bound : count ≤ graph.vertices.size)
    (member : vertex ∈ graph.newest count) :
    graph.vertices.size - count ≤ vertex ∧ vertex < graph.vertices.size := by
  rw [newest, List.mem_range'_1] at member
  omega

theorem mem_edgesBetween {sources destinations : List Nat} {position : Nat} {edge : Edge} :
    edge ∈ edgesBetween sources destinations position ↔
      edge.source ∈ sources ∧ edge.target ∈ destinations ∧ edge.position = position := by
  simp only [edgesBetween, List.mem_flatMap, List.mem_map]
  constructor
  · rintro ⟨source, left, target, right, rfl⟩
    exact ⟨left, right, rfl⟩
  · rintro ⟨left, right, rfl⟩
    exact ⟨edge.source, left, edge.target, right, rfl⟩

def written (graph : Graph) (instruction : Instruction) (execution : Execution) : Graph :=
  (graph.versionsOf (instruction.sources execution).toList).2.addVersions
    (graph.versionsOf (instruction.sources execution).toList).1
    (instruction.destinations execution).toList

def addedEdges (graph : Graph) (instruction : Instruction) (execution : Execution)
    (position : Nat) : List Edge :=
  edgesBetween (graph.versionsOf (instruction.sources execution).toList).1
    ((graph.written instruction execution).newest (instruction.destinations execution).toList.length)
    position

theorem propagate_frame (graph : Graph) (instruction : Instruction) (execution : Execution)
    (position : Nat) :
    (graph.propagate instruction execution position).input =
        (graph.written instruction execution).input ∧
      (graph.propagate instruction execution position).vertices =
        (graph.written instruction execution).vertices ∧
      (graph.propagate instruction execution position).current =
        (graph.written instruction execution).current ∧
      (graph.propagate instruction execution position).inputImports =
        (graph.written instruction execution).inputImports ∧
      ∀ {vertex : Nat} {edge : Edge},
        edge ∈ (graph.propagate instruction execution position).outgoingEdges vertex ↔
          edge ∈ (graph.written instruction execution).outgoingEdges vertex ∨
            edge ∈ graph.addedEdges instruction execution position ∧ edge.source = vertex := by
  have shape : graph.propagate instruction execution position =
      if instruction.isBranch then
        ((graph.addedEdges instruction execution position).foldl addEdge
          (graph.written instruction execution)).noteBranch position
            (graph.addedEdges instruction execution position)
      else (graph.addedEdges instruction execution position).foldl addEdge
        (graph.written instruction execution) := rfl
  obtain ⟨input, vertices, current, imports⟩ := addEdges_frame
    (graph.written instruction execution) (graph.addedEdges instruction execution position)
  have outgoing := mem_outgoingEdges_addEdges (graph.written instruction execution)
    (graph.addedEdges instruction execution position)
  rw [shape]
  split
  · exact ⟨input, vertices, current, imports, fun {vertex edge} => outgoing vertex edge⟩
  · exact ⟨input, vertices, current, imports, fun {vertex edge} => outgoing vertex edge⟩

/-- What one execution adds: its edges lead from older vertices to new ones. -/
structure Propagated (before after : Graph) (instruction : Instruction) (execution : Execution)
    (position : Nat) : Prop where
  input : after.input = before.input
  size : before.vertices.size ≤ after.vertices.size
  bound : Bound after
  edges : ∃ middle, before.vertices.size ≤ middle ∧ ∀ {vertex : Nat} {edge : Edge},
    edge ∈ after.outgoingEdges vertex → edge ∈ before.outgoingEdges vertex ∨
      edge.source = vertex ∧ edge.position = position ∧ vertex < middle ∧
        middle ≤ edge.target ∧ edge.target < after.vertices.size
  known : ∀ {address : Nat}, Operand.memory address ∈ after.current ↔
    Operand.memory address ∈ before.current ∨ execution.Touches address
  imports : ∀ {address vertex : Nat}, after.inputImports[address]? = some vertex →
    before.inputImports[address]? = some vertex ∨
      before.vertices.size ≤ vertex ∧ vertex < after.vertices.size ∧
        before.input.contains address ∧ Operand.memory address ∉ before.current ∧
        execution.Reads address

theorem propagate_propagated {graph : Graph} (bound : Bound graph) (instruction : Instruction)
    (execution : Execution) (position : Nat) :
    Propagated graph (graph.propagate instruction execution position) instruction execution
      position := by
  obtain ⟨input, vertices, current, inputImports, outgoing⟩ :=
    graph.propagate_frame instruction execution position
  obtain ⟨reads, versions⟩ :=
    versionsOf_extends bound (instruction.sources execution).toList
  obtain ⟨writes, size, imports⟩ := addVersions_extends reads.bound
    (graph.versionsOf (instruction.sources execution).toList).1
    (instruction.destinations execution).toList
  have both := reads.trans writes
  unfold addedEdges at outgoing
  rw [show (graph.versionsOf (instruction.sources execution).toList).2.addVersions
    (graph.versionsOf (instruction.sources execution).toList).1
    (instruction.destinations execution).toList = graph.written instruction execution from rfl]
    at writes size imports both
  generalize graph.written instruction execution = last at *
  generalize graph.versionsOf (instruction.sources execution).toList = looked at *
  obtain ⟨sources, middle⟩ := looked
  simp only at reads writes size imports both versions outgoing
  constructor
  · rw [input, both.input]
  · rw [vertices]
    exact both.size
  · intro operand vertex found
    rw [current] at found
    rw [vertices]
    exact both.bound found
  · refine ⟨middle.vertices.size, reads.size, fun {vertex edge} member => ?_⟩
    rcases outgoing.mp member with old | ⟨added, here⟩
    · refine Or.inl ?_
      rwa [outgoingEdges, both.outgoing] at old
    · obtain ⟨source, target, at_⟩ := mem_edgesBetween.mp added
      have targets := mem_newest (by omega) target
      rw [vertices]
      exact Or.inr ⟨here, at_, here ▸ versions _ source, by omega, targets.2⟩
  · intro address
    rw [current, both.known, List.mem_append, Std.ExtTreeSet.mem_toList,
      Std.ExtTreeSet.mem_toList, Instruction.mem_sources, Instruction.mem_destinations]
    exact Iff.rfl
  · intro address vertex found
    rw [inputImports, imports] at found
    have sizes := writes.size
    rcases reads.imports found with old | ⟨above, below, inside, fresh, member⟩
    · exact Or.inl old
    · rw [Std.ExtTreeSet.mem_toList, Instruction.mem_sources] at member
      rw [vertices]
      exact Or.inr ⟨above, by omega, inside, fresh, member⟩

/-- The graph of some executions, the first of which is behind the position `base`. -/
structure Follows (graph : Graph) (base : Nat) (executions : List Execution) : Prop where
  bound : Bound graph
  edge : ∀ {vertex : Nat} {edge : Edge}, edge ∈ graph.outgoingEdges vertex →
    edge.source = vertex ∧ vertex < edge.target ∧ edge.target < graph.vertices.size ∧
      edge.position ≤ base + executions.length
  path : ∀ {vertex : Nat} {first second : Edge}, first ∈ graph.outgoingEdges vertex →
    second ∈ graph.outgoingEdges first.target → first.position ≤ second.position
  known : ∀ {address : Nat}, Operand.memory address ∈ graph.current ↔
    ∃ execution ∈ executions, execution.Touches address
  imports : ∀ {address vertex : Nat}, graph.inputImports[address]? = some vertex →
    vertex < graph.vertices.size ∧ graph.input.contains address ∧
      ∃ (index : Nat) (execution : Execution), executions[index]? = some execution ∧
        execution.Reads address ∧
        (∀ {earlier : Nat} {other : Execution}, earlier < index →
          executions[earlier]? = some other → ¬ other.Touches address) ∧
        ∀ edge ∈ graph.outgoingEdges vertex, base + index < edge.position

theorem follows_empty (input : InputBuffer) (base : Nat) : Follows (empty input) base [] := by
  constructor <;> simp [Bound, empty, outgoingEdges]

theorem Follows.propagate {graph : Graph} {base : Nat} {executions : List Execution}
    (follows : Follows graph base executions) (instruction : Instruction) (execution : Execution) :
    Follows (graph.propagate instruction execution (base + executions.length + 1)) base
      (executions ++ [execution]) := by
  have added := propagate_propagated follows.bound instruction execution
    (base + executions.length + 1)
  generalize graph.propagate instruction execution (base + executions.length + 1) = after at added
  obtain ⟨middle, above, edges⟩ := added.edges
  have sizes := added.size
  have length : (executions ++ [execution]).length = executions.length + 1 := by simp
  constructor
  · exact added.bound
  · intro vertex edge member
    rw [length]
    rcases edges member with old | ⟨source, at_, below, target, inside⟩
    · obtain ⟨source, up, inside, last⟩ := follows.edge old
      exact ⟨source, up, by omega, by omega⟩
    · exact ⟨source, by omega, inside, by omega⟩
  · intro vertex first second here next
    rcases edges next with oldNext | ⟨_, at_, below, _, _⟩
    · rcases edges here with oldHere | ⟨_, _, _, target, _⟩
      · exact follows.path oldHere oldNext
      · have := follows.edge oldNext
        omega
    · rcases edges here with oldHere | ⟨_, _, _, target, _⟩
      · have := (follows.edge oldHere).2.2.2
        omega
      · omega
  · intro address
    rw [added.known, follows.known]
    simp only [List.mem_append, List.mem_singleton, or_and_right, exists_or, exists_eq_left]
  · intro address vertex found
    rcases added.imports found with old | ⟨fresh, inside, contained, unknown, reads⟩
    · obtain ⟨inside, contained, index, first, at_, reads, untouched, late⟩ := follows.imports old
      obtain ⟨bound, _⟩ := List.getElem?_eq_some_iff.mp at_
      refine ⟨by omega, added.input ▸ contained, index, first, ?_, reads, ?_, ?_⟩
      · rwa [List.getElem?_append_left bound]
      · intro earlier other before there
        rw [List.getElem?_append_left (by omega)] at there
        exact untouched before there
      · intro edge member
        rcases edges member with older | ⟨_, behind, _, _, _⟩
        · exact late edge older
        · omega
    · refine ⟨inside, added.input ▸ contained, executions.length, execution, by simp, reads, ?_, ?_⟩
      · intro earlier other before there
        rw [List.getElem?_append_left before] at there
        rw [follows.known] at unknown
        exact fun touched => unknown ⟨other, List.mem_of_getElem? there, touched⟩
      · intro edge member
        rcases edges member with older | ⟨_, behind, _, _, _⟩
        · obtain ⟨_, up, below, _⟩ := follows.edge older
          omega
        · omega

end Flow.Graph

end BranchSteer
