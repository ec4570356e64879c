import BranchSteer.Proofs.Flips
import BranchSteer.Proofs.OperandValues
import BranchSteer.Proofs.Reachability

/-!
Two runs of a program with different inputs that execute the same addresses. As long as they do, an operand
holds the same in both, unless its version in the data flow graph lies behind the import of a byte in which
the inputs differ. A conditional branch has the same outcome in both, unless it lies behind such an import.

The graph takes the register `ip` for the outcome of the latest conditional branch, whatever the program keeps
there. Behind a branch the register must not be read before it is written.
-/

namespace BranchSteer

open BranchSteer.Flow

namespace Flow.Graph

def Carries (graph : Graph) (differs : Nat → Prop) (operand : Operand) : Prop :=
  ∃ address, differs address ∧
    ((∃ start vertex, graph.inputImports[address]? = some start ∧
        Operand.memory address ∈ graph.current ∧ graph.current[operand]? = some vertex ∧
        graph.Reaches start vertex) ∨
      operand = .memory address ∧ graph.current[operand]? = none)

def Decides (graph : Graph) (differs : Nat → Prop) (position : Nat) : Prop :=
  ∃ address start, differs address ∧ graph.inputImports[address]? = some start ∧
    Operand.memory address ∈ graph.current ∧ graph.Influences start position

variable {graph : Graph} {differs : Nat → Prop} {operand destination : Operand}
  {instruction : Instruction} {execution : Execution} {position : Nat}

theorem known_propagate (bound : Bound graph) {address : Nat}
    (known : Operand.memory address ∈ graph.current) :
    Operand.memory address ∈ (graph.propagate instruction execution position).current :=
  (propagate_propagated bound instruction execution position).known.mpr (Or.inl known)

theorem Decides.propagate (bound : Bound graph) (decides : graph.Decides differs position)
    (later : Nat) : (graph.propagate instruction execution later).Decides differs position := by
  obtain ⟨address, start, different, imported, known, influences⟩ := decides
  have versioned := propagate_versioned bound instruction execution later
  exact ⟨address, start, different, versioned.imports known imported, known_propagate bound known,
    influences.mono versioned.edges⟩

theorem Carries.source (bound : Bound graph) (inside : ∀ address, differs address →
      graph.input.contains address) (carries : graph.Carries differs operand)
    (member : operand ∈ instruction.sources execution) :
    ∃ address start vertex, differs address ∧
      (graph.propagate instruction execution position).inputImports[address]? = some start ∧
      Operand.memory address ∈ (graph.propagate instruction execution position).current ∧
      (graph.propagate instruction execution position).Reaches start vertex ∧
      (operand ∉ instruction.destinations execution →
        (graph.propagate instruction execution position).current[operand]? = some vertex) ∧
      ∀ destination ∈ instruction.destinations execution,
        ∃ edge ∈ (graph.propagate instruction execution position).outgoingEdges vertex,
          edge.position = position ∧
          (graph.propagate instruction execution position).current[destination]? =
            some edge.target := by
  have versioned := propagate_versioned bound instruction execution position
  obtain ⟨vertex, resolves, kept, written⟩ := versioned.source operand member
  obtain ⟨address, different, ⟨start, version, imported, known, found, reaches⟩ | ⟨rfl, missing⟩⟩ :=
    carries
  · rcases resolves with same | ⟨none, _⟩
    · rw [found, Option.some.injEq] at same
      subst same
      exact ⟨address, start, version, different, versioned.imports known imported,
        known_propagate bound known, reaches.mono versioned.edges, kept, written⟩
    · simp [found] at none
  · rcases resolves with found | ⟨_, imported⟩
    · simp [missing] at found
    · refine ⟨address, vertex, vertex, different, imported address rfl (inside address different), ?_,
        .start, kept, written⟩
      have reads := (Instruction.mem_sources instruction execution address).mp member
      exact (propagate_propagated bound instruction execution position).known.mpr
        (Or.inr (Or.inl reads))

theorem Carries.kept (bound : Bound graph) (inside : ∀ address, differs address →
      graph.input.contains address) (carries : graph.Carries differs operand)
    (unwritten : operand ∉ instruction.destinations execution) :
    (graph.propagate instruction execution position).Carries differs operand := by
  by_cases member : operand ∈ instruction.sources execution
  · obtain ⟨address, start, vertex, different, imported, known, reaches, kept, _⟩ :=
      carries.source bound inside member
    exact ⟨address, different, Or.inl ⟨start, vertex, imported, known, kept unwritten, reaches⟩⟩
  · have versioned := propagate_versioned bound instruction execution position
    have same := versioned.other operand member unwritten
    obtain ⟨address, different, ⟨start, version, imported, known, found, reaches⟩ | ⟨here, missing⟩⟩ :=
      carries
    · exact ⟨address, different, Or.inl ⟨start, version, versioned.imports known imported,
        known_propagate bound known, same.trans found, reaches.mono versioned.edges⟩⟩
    · exact ⟨address, different, Or.inr ⟨here, same.trans missing⟩⟩

theorem Carries.written (bound : Bound graph) (inside : ∀ address, differs address →
      graph.input.contains address) (carries : graph.Carries differs operand)
    (member : operand ∈ instruction.sources execution)
    (written : destination ∈ instruction.destinations execution) :
    (graph.propagate instruction execution position).Carries differs destination ∧
      (graph.propagate instruction execution position).Decides differs position := by
  obtain ⟨address, start, vertex, different, imported, known, reaches, _, leads⟩ :=
    carries.source bound inside member
  obtain ⟨edge, listed, here, found⟩ := leads destination written
  exact ⟨⟨address, different, Or.inl ⟨start, edge.target, imported, known, found,
      reaches.along listed⟩⟩,
    address, start, different, imported, known, vertex, reaches, edge, listed, here⟩

end Flow.Graph

namespace Machine

inductive FlowsInto (origin : Machine) (input : InputBuffer) : Nat → Graph → Prop
  | start : FlowsInto origin input 0 (.empty input)
  | along {count : Nat} {graph : Graph} {machine : Machine} {operation : Operation} :
    FlowsInto origin input count graph → origin.steps count = .ok machine →
    machine.operation = .ok operation →
    FlowsInto origin input (count + 1) (graph.propagate
      (describe machine.instructionPointer operation) (foresee machine.processor operation)
      (count + 1))

/-- A conditional branch was executed, and no operation behind it has changed the register `ip`. -/
inductive Shadowed (origin : Machine) : Nat → Prop
  | branch {count : Nat} {machine : Machine} {operation : Operation} :
    origin.steps count = .ok machine → machine.operation = .ok operation → operation.isBranch →
    Shadowed origin (count + 1)
  | along {count : Nat} {machine : Machine} {operation : Operation} : Shadowed origin count →
    origin.steps count = .ok machine → machine.operation = .ok operation →
    operation.target? ≠ some instructionPointerName → Shadowed origin (count + 1)

def ReadsPlainly (origin : Machine) (bound : Nat) : Prop :=
  ∀ {count : Nat} {machine : Machine} {operation : Operation}, count < bound →
    origin.steps count = .ok machine → machine.operation = .ok operation →
    instructionPointerName ∈ operation.readNames → ¬ origin.Shadowed count

def Parallel (origin other : Machine) (bound : Nat) : Prop :=
  ∀ count < bound, ∃ left right, origin.steps count = .ok left ∧ other.steps count = .ok right ∧
    left.instructionPointer = right.instructionPointer

variable {origin other left right : Machine} {input : InputBuffer} {count : Nat} {graph : Graph}
  {differs : Nat → Prop}

theorem FlowsInto.bound (flows : origin.FlowsInto input count graph) :
    graph.Bound ∧ graph.input = input := by
  induction flows with
  | start => exact ⟨by simp [Graph.Bound, Graph.empty], rfl⟩
  | @along count graph machine operation _ _ _ ih =>
      have propagated := Graph.propagate_propagated ih.1
        (describe machine.instructionPointer operation) (foresee machine.processor operation)
        (count + 1)
      exact ⟨propagated.bound, propagated.input.trans ih.2⟩

/-- Two runs of the same program with inputs that differ in some bytes of the buffer. -/
structure Twins (origin other : Machine) (input : InputBuffer) (differs : Nat → Prop) : Prop where
  agree : AgreeOff differs origin other
  inside : ∀ address, differs address → input.contains address
  small : origin.memory.size < addressSpace

theorem Twins.operation (twins : Twins origin other input differs)
    (reached : origin.steps count = .ok left) (reachedToo : other.steps count = .ok right)
    (same : left.instructionPointer = right.instructionPointer) :
    right.operation = left.operation ∧ left.memory.size < addressSpace ∧
      right.memory.size < addressSpace := by
  have smallToo : other.memory.size < addressSpace := twins.agree.size ▸ twins.small
  obtain ⟨program, size⟩ := steps_framed twins.small reached
  obtain ⟨programToo, sizeToo⟩ := steps_framed smallToo reachedToo
  refine ⟨operation_congr ?_ same.symm, size ▸ twins.small, sizeToo ▸ smallToo⟩
  rw [program, programToo, twins.agree.operations]

def Explains (origin : Machine) (graph : Graph) (differs : Nat → Prop) (count : Nat)
    (left right : Machine) : Prop :=
  ∀ operand, ¬ (operand = .register instructionPointerName ∧ origin.Shadowed count) →
    AgreeOn left right operand ∨ graph.Carries differs operand

theorem Twins.explains (twins : Twins origin other input differs) :
    origin.Explains (.empty input) differs 0 origin other := by
  intro operand _
  cases operand with
  | register name =>
      refine Or.inl ?_
      simp only [AgreeOn, register, twins.agree.processor]
  | memory address =>
      by_cases different : differs address
      · exact Or.inr ⟨address, different, Or.inr ⟨rfl, by simp [Graph.empty]⟩⟩
      · exact Or.inl (twins.agree.byte address different)

theorem Explains.sources {operation : Operation} {address : Nat}
    (explains : origin.Explains graph differs count left right)
    (plainly : instructionPointerName ∈ operation.readNames → ¬ origin.Shadowed count) :
    (∀ source ∈ (describe address operation).sources (foresee left.processor operation),
      AgreeOn left right source) ∨
    ∃ source ∈ (describe address operation).sources (foresee left.processor operation),
      graph.Carries differs source := by
  by_cases carried : ∃ source ∈ (describe address operation).sources
      (foresee left.processor operation), graph.Carries differs source
  · exact Or.inr carried
  · refine Or.inl fun source member => ?_
    refine (explains source ?_).resolve_right fun carries => carried ⟨source, member, carries⟩
    rintro ⟨rfl, shadowed⟩
    exact plainly (register_mem_sources.mp member) shadowed

theorem register_of_isBranch {operation : Operation} {address : Nat} {processor : Processor}
    {operand : Operand} (branch : operation.isBranch)
    (written : operand ∈ (describe address operation).destinations (foresee processor operation)) :
    ∃ name, operand = .register name := by
  cases operand with
  | register name => exact ⟨name, rfl⟩
  | memory byte =>
      have writes := (Instruction.mem_destinations _ _ byte).mp written
      cases operation <;> simp [Operation.isBranch, foresee, Execution.plain, Execution.Writes]
        at branch writes

theorem Explains.step {operation : Operation} {nextLeft nextRight : Machine}
    (twins : Twins origin other input differs) (flows : origin.FlowsInto input count graph)
    (explains : origin.Explains graph differs count left right)
    (reached : origin.steps count = .ok left) (reachedToo : other.steps count = .ok right)
    (same : left.instructionPointer = right.instructionPointer)
    (found : left.operation = .ok operation)
    (plainly : instructionPointerName ∈ operation.readNames → ¬ origin.Shadowed count)
    (done : left.step = .ok nextLeft) (doneToo : right.step = .ok nextRight) :
    origin.Explains (graph.propagate (describe left.instructionPointer operation)
      (foresee left.processor operation) (count + 1)) differs (count + 1) nextLeft nextRight := by
  obtain ⟨bound, rfl⟩ := flows.bound
  obtain ⟨sameOperation, small, smallToo⟩ := twins.operation reached reachedToo same
  have foundToo : right.operation = .ok operation := sameOperation.trans found
  intro operand visible
  by_cases changed : operand ∈ (describe left.instructionPointer operation).destinations
      (foresee left.processor operation) ∧ ¬ operation.isBranch
  · obtain ⟨written, plain⟩ := changed
    rcases explains.sources plainly with agree | ⟨source, member, carries⟩
    · exact Or.inl (step_determined small found foundToo done doneToo agree written plain)
    · exact Or.inr (carries.written bound twins.inside member written).1
  · have unwritten : operand ∉ (describe left.instructionPointer operation).destinations
        (foresee left.processor operation) := by
      intro written
      have branch : operation.isBranch := Classical.not_not.mp fun plain => changed ⟨written, plain⟩
      obtain ⟨name, rfl⟩ := register_of_isBranch branch written
      rcases register_mem_destinations.mp written with target | ⟨_, rfl⟩
      · cases operation <;> simp [Operation.isBranch, Operation.target?] at branch target
      · exact visible ⟨rfl, .branch reached found branch⟩
    have before : ¬ (operand = .register instructionPointerName ∧ origin.Shadowed count) := by
      rintro ⟨rfl, shadowed⟩
      refine visible ⟨rfl, shadowed.along reached found fun target => ?_⟩
      exact unwritten (register_mem_destinations.mpr (Or.inl target))
    rcases explains operand before with agree | carries
    · have kept := step_keeps small found done unwritten
      have keptToo := step_keeps smallToo foundToo doneToo unwritten
      exact Or.inl ((kept.trans agree).trans keptToo.symm)
    · exact Or.inr (carries.kept bound twins.inside unwritten)

theorem FlowsInto.explains (twins : Twins origin other input differs)
    (flows : origin.FlowsInto input count graph) (parallel : origin.Parallel other count)
    (plainly : origin.ReadsPlainly count) (reached : origin.steps count = .ok left)
    (reachedToo : other.steps count = .ok right) :
    origin.Explains graph differs count left right := by
  induction flows generalizing left right with
  | start =>
      rw [steps, Except.ok.injEq] at reached reachedToo
      subst reached reachedToo
      exact twins.explains
  | @along count graph machine operation flows there found ih =>
      obtain ⟨_, twin, here, thereToo, same⟩ := parallel count (Nat.lt_succ_self _)
      rw [there, Except.ok.injEq] at here
      subst here
      obtain ⟨_, before, done⟩ := steps_succ.mp reached
      rw [there, Except.ok.injEq] at before
      subst before
      obtain ⟨_, beforeToo, doneToo⟩ := steps_succ.mp reachedToo
      rw [thereToo, Except.ok.injEq] at beforeToo
      subst beforeToo
      have explains := ih (fun earlier below => parallel earlier (Nat.lt_succ_of_lt below))
        (fun below => plainly (Nat.lt_succ_of_lt below)) there thereToo
      exact explains.step twins flows there thereToo same found
        (fun reads => plainly (Nat.lt_succ_self _) there found reads) done doneToo

theorem FlowsInto.outcome {total : Nat} (twins : Twins origin other input differs)
    (flows : origin.FlowsInto input total graph) (before : count < total)
    (parallel : origin.Parallel other (count + 1)) (plainly : origin.ReadsPlainly count)
    (reached : origin.steps count = .ok left) (reachedToo : other.steps count = .ok right)
    {operation : Operation} (found : left.operation = .ok operation) (branch : operation.isBranch) :
    (foresee right.processor operation).taken = (foresee left.processor operation).taken ∨
      graph.Decides differs (count + 1) := by
  induction flows with
  | start => omega
  | @along last graph machine others flows there foundThere ih =>
      obtain ⟨bound, same⟩ := flows.bound
      rcases Nat.lt_or_eq_of_le (Nat.le_of_lt_succ before) with earlier | rfl
      · exact (ih earlier).imp id fun decides => decides.propagate bound _
      · rw [reached, Except.ok.injEq] at there
        subst there
        rw [found, Except.ok.injEq] at foundThere
        subst foundThere
        have explains := flows.explains twins
          (fun earlier below => parallel earlier (Nat.lt_succ_of_lt below)) plainly reached reachedToo
        have visible : ¬ (Operand.register flagsName = .register instructionPointerName ∧
            origin.Shadowed count) := by
          rintro ⟨impossible, _⟩
          simp [flagsName, instructionPointerName] at impossible
        have reads : flagsName ∈ operation.readNames := by
          cases operation <;> simp_all [Operation.isBranch, Operation.readNames]
        rcases explains _ visible with agree | carries
        · left
          have flags : left.processor.register flagsName = right.processor.register flagsName := agree
          cases operation <;> simp_all [foresee, Execution.plain, Operation.isBranch]
        · right
          exact (carries.written bound (same ▸ twins.inside) (register_mem_sources.mpr reads)
            (register_mem_destinations.mpr (Or.inr ⟨branch, rfl⟩))).2

end Machine

end BranchSteer
