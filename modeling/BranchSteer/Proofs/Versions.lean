import BranchSteer.Proofs.DataFlow

/-!
The versions of operands that an execution reads and writes. Its sources are looked up, or imported if they
have no version yet, every destination gets a new one, and an edge leads from each source to each
destination. All other versions stay.
-/

namespace BranchSteer.Flow.Graph

def Resolves (before after : Graph) (operand : Operand) (vertex : Nat) : Prop :=
  before.current[operand]? = some vertex ∨
    before.current[operand]? = none ∧ ∀ address, operand = .memory address →
      before.input.contains address → after.inputImports[address]? = some vertex

structure Looks (before after : Graph) (operands : List Operand) (vertices : List Nat) : Prop where
  input : after.input = before.input
  source : ∀ operand ∈ operands, ∃ vertex ∈ vertices, after.current[operand]? = some vertex ∧
    Resolves before after operand vertex
  other : ∀ operand, operand ∉ operands → after.current[operand]? = before.current[operand]?
  kept : ∀ {operand : Operand} {vertex : Nat}, before.current[operand]? = some vertex →
    after.current[operand]? = some vertex
  imports : ∀ {address vertex : Nat}, Operand.memory address ∈ before.current →
    before.inputImports[address]? = some vertex → after.inputImports[address]? = some vertex

theorem mem_current {graph : Graph} {operand : Operand} {vertex : Nat}
    (found : graph.current[operand]? = some vertex) : operand ∈ graph.current := by
  rw [Std.ExtTreeMap.mem_iff_isSome_getElem?, found, Option.isSome_some]

theorem addVertex_current (graph : Graph) (operand other : Operand) (imported : Bool)
    (sources : List Nat) : (graph.addVertex operand imported sources).current[other]? =
      if operand = other then some graph.vertices.size else graph.current[other]? := by
  simp only [addVertex, Std.ExtTreeMap.getElem?_insert, Std.LawfulEqOrd.compare_eq_iff_eq]

theorem noteImport_frame (graph : Graph) (operand : Operand) (vertex : Nat) :
    (graph.noteImport operand vertex).current = graph.current ∧
      (graph.noteImport operand vertex).input = graph.input := by
  unfold noteImport
  split
  · split <;> exact ⟨rfl, rfl⟩
  · exact ⟨rfl, rfl⟩

theorem noteImport_self (graph : Graph) {address : Nat} (inside : graph.input.contains address)
    (vertex : Nat) :
    (graph.noteImport (.memory address) vertex).inputImports[address]? = some vertex := by
  simp [noteImport, Operand.address?, inside]

theorem noteImport_other (graph : Graph) {operand : Operand} {address : Nat}
    (other : operand ≠ .memory address) (vertex : Nat) :
    (graph.noteImport operand vertex).inputImports[address]? = graph.inputImports[address]? := by
  unfold noteImport
  split
  · rename_i here same
    have different : here ≠ address := by
      rintro rfl
      cases operand <;> simp_all [Operand.address?]
    split
    · simp only [Std.ExtTreeMap.getElem?_insert, Nat.compare_eq_eq, different, if_false]
    · rfl
  · rfl

theorem versionOf_looks (graph : Graph) (operand : Operand) :
    Looks graph (graph.versionOf operand).2 [operand] [(graph.versionOf operand).1] := by
  unfold versionOf
  split
  · rename_i vertex found
    refine ⟨rfl, ?_, fun _ _ => rfl, id, fun _ => id⟩
    rw [List.forall_mem_singleton]
    exact ⟨vertex, List.mem_cons_self, found, Or.inl found⟩
  · rename_i missing
    obtain ⟨current, input⟩ :=
      (graph.addVertex operand true []).noteImport_frame operand graph.vertices.size
    constructor
    · exact input
    · rw [List.forall_mem_singleton]
      refine ⟨graph.vertices.size, List.mem_cons_self, ?_, Or.inr ⟨missing, ?_⟩⟩
      · rw [current, addVertex_current, if_pos rfl]
      · rintro address rfl inside
        exact noteImport_self (graph.addVertex (.memory address) true []) inside graph.vertices.size
    · intro other outside
      rw [List.mem_singleton] at outside
      rw [current, addVertex_current, if_neg (Ne.symm outside)]
    · intro other vertex found
      have different : operand ≠ other := by
        rintro rfl
        simp [missing] at found
      rw [current, addVertex_current, if_neg different, found]
    · intro address vertex known imported
      have different : operand ≠ .memory address := by
        rintro rfl
        rw [Std.ExtTreeMap.mem_iff_isSome_getElem?, missing] at known
        simp at known
      rw [noteImport_other _ different]
      exact imported

theorem Looks.cons {before middle after : Graph} {operand : Operand} {vertex : Nat}
    {rest : List Operand} {vertices : List Nat} (one : Looks before middle [operand] [vertex])
    (others : Looks middle after rest vertices) :
    Looks before after (operand :: rest) (vertex :: vertices) := by
  obtain ⟨version, member, found, resolves⟩ := one.source operand List.mem_cons_self
  have same : version = vertex := List.mem_singleton.mp member
  subst same
  have here : Resolves before after operand version := by
    rcases resolves with known | ⟨missing, imported⟩
    · exact Or.inl known
    · refine Or.inr ⟨missing, fun address same inside => ?_⟩
      exact others.imports (same ▸ mem_current found) (imported address same inside)
  constructor
  · exact others.input.trans one.input
  · intro other member
    by_cases same : other = operand
    · subst same
      exact ⟨version, List.mem_cons_self, others.kept found, here⟩
    · obtain ⟨version, listed, current, resolved⟩ :=
        others.source other ((List.mem_cons.mp member).resolve_left same)
      have unlisted : other ∉ [operand] := mt List.mem_singleton.mp same
      refine ⟨version, List.mem_cons_of_mem _ listed, current, ?_⟩
      rw [Resolves, one.other other unlisted, one.input] at resolved
      exact resolved
  · intro other outside
    rw [List.mem_cons, not_or] at outside
    rw [others.other other outside.2, one.other other (mt List.mem_singleton.mp outside.1)]
  · exact fun known => others.kept (one.kept known)
  · intro address version known imported
    have there := one.kept (Std.ExtTreeMap.getElem?_eq_some_getElem known)
    exact others.imports (mem_current there) (one.imports known imported)

theorem versionsOf_looks (graph : Graph) (operands : List Operand) :
    Looks graph (graph.versionsOf operands).2 operands (graph.versionsOf operands).1 := by
  induction operands generalizing graph with
  | nil => exact ⟨rfl, by simp, fun _ _ => rfl, id, fun _ => id⟩
  | cons operand rest ih => exact (versionOf_looks graph operand).cons (ih _)

theorem addVersions_current (graph : Graph) (sources : List Nat) (operands : List Operand) :
    (∀ operand ∈ operands, ∃ vertex, graph.vertices.size ≤ vertex ∧
      (graph.addVersions sources operands).current[operand]? = some vertex) ∧
      ∀ operand, operand ∉ operands →
        (graph.addVersions sources operands).current[operand]? = graph.current[operand]? := by
  induction operands generalizing graph with
  | nil => exact ⟨by simp, fun _ _ => rfl⟩
  | cons first rest ih =>
      obtain ⟨written, others⟩ := ih (graph.addVertex first false sources)
      constructor
      · intro operand member
        by_cases later : operand ∈ rest
        · obtain ⟨vertex, above, found⟩ := written operand later
          simp only [addVertex, Array.size_push] at above
          exact ⟨vertex, by omega, found⟩
        · have same : operand = first := (List.mem_cons.mp member).resolve_right later
          refine ⟨graph.vertices.size, Nat.le_refl _, (others operand later).trans ?_⟩
          rw [addVertex_current, if_pos same.symm]
      · intro operand outside
        rw [List.mem_cons, not_or] at outside
        refine (others operand outside.2).trans ?_
        rw [addVertex_current, if_neg (Ne.symm outside.1)]

/-- What one execution makes of the versions of operands. -/
structure Versioned (before after : Graph) (sources destinations : Std.ExtTreeSet Operand)
    (position : Nat) : Prop where
  edges : ∀ {vertex : Nat} {edge : Edge}, edge ∈ before.outgoingEdges vertex →
    edge ∈ after.outgoingEdges vertex
  source : ∀ operand ∈ sources, ∃ vertex, Resolves before after operand vertex ∧
    (operand ∉ destinations → after.current[operand]? = some vertex) ∧
    ∀ destination ∈ destinations, ∃ edge ∈ after.outgoingEdges vertex,
      edge.position = position ∧ after.current[destination]? = some edge.target
  other : ∀ operand, operand ∉ sources → operand ∉ destinations →
    after.current[operand]? = before.current[operand]?
  imports : ∀ {address vertex : Nat}, Operand.memory address ∈ before.current →
    before.inputImports[address]? = some vertex → after.inputImports[address]? = some vertex

theorem propagate_versioned {graph : Graph} (bound : Bound graph) (instruction : Instruction)
    (execution : Execution) (position : Nat) :
    Versioned graph (graph.propagate instruction execution position)
      (instruction.sources execution) (instruction.destinations execution) position := by
  obtain ⟨_, _, current, inputImports, outgoing⟩ :=
    graph.propagate_frame instruction execution position
  have looks := graph.versionsOf_looks (instruction.sources execution).toList
  obtain ⟨reads, _⟩ := versionsOf_extends bound (instruction.sources execution).toList
  obtain ⟨writes, size, imports⟩ := addVersions_extends reads.bound
    (graph.versionsOf (instruction.sources execution).toList).1
    (instruction.destinations execution).toList
  obtain ⟨fresh, others⟩ := addVersions_current
    (graph.versionsOf (instruction.sources execution).toList).2
    (graph.versionsOf (instruction.sources execution).toList).1
    (instruction.destinations execution).toList
  unfold addedEdges at outgoing
  rw [show (graph.versionsOf (instruction.sources execution).toList).2.addVersions
    (graph.versionsOf (instruction.sources execution).toList).1
    (instruction.destinations execution).toList = graph.written instruction execution from rfl]
    at writes size imports
  have same : ∀ operand : Operand, (graph.propagate instruction execution position).current[operand]? =
      (graph.written instruction execution).current[operand]? := fun operand => by rw [current]
  simp only [Std.ExtTreeSet.mem_toList] at fresh others looks
  constructor
  · intro vertex edge member
    refine outgoing.mpr (Or.inl ?_)
    rw [outgoingEdges, writes.outgoing, reads.outgoing]
    exact member
  · intro operand member
    obtain ⟨vertex, listed, found, resolves⟩ :=
      looks.source operand (Std.ExtTreeSet.mem_toList.mpr member)
    refine ⟨vertex, ?_, fun outside => ?_, fun destination written => ?_⟩
    · rcases resolves with known | ⟨missing, imported⟩
      · exact Or.inl known
      · refine Or.inr ⟨missing, fun address here inside => ?_⟩
        rw [inputImports, imports]
        exact imported address here inside
    · rw [same]
      exact (others operand outside).trans found
    · obtain ⟨target, above, there⟩ := fresh destination written
      refine ⟨⟨vertex, target, position⟩, outgoing.mpr (Or.inr ⟨?_, rfl⟩), rfl, ?_⟩
      · have below := writes.bound there
        refine mem_edgesBetween.mpr ⟨listed, ?_, rfl⟩
        rw [newest, List.mem_range'_1]
        simp only
        omega
      · rw [same]
        exact there
  · intro operand unread unwritten
    rw [same]
    exact (others operand unwritten).trans
      (looks.other operand (mt Std.ExtTreeSet.mem_toList.mp unread))
  · intro address vertex known imported
    rw [inputImports, imports]
    exact looks.imports known imported

end BranchSteer.Flow.Graph
