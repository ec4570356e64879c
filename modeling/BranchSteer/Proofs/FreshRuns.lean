import BranchSteer.Proofs.Runs

/-!
Tainting phases and fresh runs. A phase takes over the first instructions of the run before it and
overwrites the whole buffer with its input. A fresh run with this input executes the same instructions,
since none of them reads the buffer, but some may have written to it. So a phase is faithful to the fresh
run exactly if that run still has its input in the buffer at the point where the phase starts.
-/

namespace BranchSteer

open Machine (Alike AgreeOff)

theorem Memory.byte_setBytes_of_holds {memory : Memory} {address : Nat} {values : List UInt8}
    (holds : memory.Holds address values) (other : Nat) :
    (memory.setBytes address values).byte other = memory.byte other := by
  rw [byte_setBytes]
  split
  · rename_i above
    cases found : values[other - address]? with
    | none => rfl
    | some value =>
        have here := holds _ value found
        rw [show address + (other - address) = other by omega] at here
        exact here.symm
  · rfl

namespace Session

/-- The state of the machine, and the trace, are those of a fresh run of the program with the input of
the phase. -/
def Faithful (program : Program) (session : Session) : Prop :=
  ∃ fresh twin, Machine.load { program with input := session.engine.baseInput } = .ok fresh ∧
    fresh.steps session.engine.position = .ok twin ∧
    session.machine.processor = twin.processor ∧ session.machine.memory = twin.memory ∧
    session.engine.trace.size = session.engine.position ∧
    fresh.FollowsTrace 0 session.engine.trace session.engine.position

variable {config : Config} {drawn : Random} {program : Program} {first session start : Session}
  {executions : List Execution} {stepLimit turns begun phase : Nat}

theorem InPhase.tainting_of_phase {origin : Machine} {genuine : Finding → List UInt8 → Prop}
    (inPhase : session.InPhase origin executions genuine)
    (phase : session.engine.phase = .tainting) :
    session.engine.Tainting executions ∧ ∃ now, origin.steps executions.length = .ok now ∧
      Alike session.machine now := by
  cases inPhase.situation with
  | tainting tainting supported now reached alike => exact ⟨tainting, now, reached, alike⟩
  | forwarding forwards =>
      have rollbacking := forwards.steered.phase
      simp [phase] at rollbacking
  | attempting resolution attempting =>
      have rollbacking := attempting.attempts.steered.phase
      simp [phase] at rollbacking

theorem Since.length (since : Since program first stepLimit turns session begun start executions) :
    session.engine.baseInput.length = program.input.length := by
  have length : session.engine.baseInput.length = session.engine.input.length :=
    since.inPhase.describes.inputLength
  rw [length, since.input]
  rfl

theorem Since.overwritten
    (since : Since program first stepLimit turns session begun start executions) :
    ∃ fresh machine, Machine.load { program with input := session.engine.baseInput } = .ok fresh ∧
      fresh.steps session.engine.basePosition = .ok machine ∧
      Alike start.machine { machine with
        memory := machine.memory.setBytes program.inputBuffer.address session.engine.baseInput } ∧
      fresh.FollowsTrace 0 start.engine.trace session.engine.basePosition := by
  obtain ⟨fresh, machine, loaded, done, agree, follows⟩ := since.prefixed since.length
  rw [since.base] at done follows
  refine ⟨fresh, machine, loaded, done, ⟨agree.operations.symm, agree.processor.symm,
    agree.halted.symm, ?_, fun address _ => ?_⟩, follows⟩
  · rw [Memory.size_setBytes]
    exact agree.size.symm
  · have holds := since.inPhase.holds
    rw [since.input] at holds
    rw [Memory.byte_setBytes]
    by_cases inside : program.inputBuffer.contains address
    · have bounds := (InputBuffer.contains_iff _ _).mp inside
      have length := since.length
      have place : program.inputBuffer.address + (address - program.inputBuffer.address) =
          address := by omega
      have offset : address - program.inputBuffer.address < session.engine.baseInput.length := by
        have same : program.inputBuffer.length = program.input.length := rfl
        omega
      have here := holds _ _ (List.getElem?_eq_getElem offset)
      rw [place] at here
      rw [if_pos bounds.1, List.getElem?_eq_getElem offset, Option.getD_some, here]
    · have outside := mt (InputBuffer.contains_iff program.inputBuffer address).mpr inside
      have same : program.inputBuffer.length = program.input.length := rfl
      have length := since.length
      rw [← agree.byte address inside]
      split
      · rw [List.getElem?_eq_none (by omega), Option.getD_none]
      · rfl

theorem Since.start_eq (launched : launch config program drawn = .ok first) {also : Session} {other : Nat}
    (since : Since program first stepLimit turns session other also executions)
    (here : first.afterTurns stepLimit begun = some start)
    (starts : start.StartsPhase session.engine.phaseNumber) : also = start := by
  have same := startsPhase_unique launched here starts since.reached since.starts
  have reached := since.reached
  rw [same, here, Option.some.injEq] at reached
  exact reached.symm

/-- All callbacks of a tainting phase are faithful to a fresh run with its input, exactly if this run
has the input in the buffer where the phase starts. -/
theorem faithful_iff (launched : launch config program drawn = .ok first)
    (here : first.afterTurns stepLimit begun = some start) (starts : start.StartsPhase phase) :
    (∀ {turns : Nat} {session : Session}, first.afterTurns stepLimit turns = some session →
      session.engine.phase = .tainting → session.engine.phaseNumber = phase →
        session.Faithful program) ↔
    ∃ fresh machine, Machine.load { program with input := start.engine.baseInput } = .ok fresh ∧
      fresh.steps start.engine.basePosition = .ok machine ∧
      machine.memory.Holds program.inputBuffer.address start.engine.baseInput := by
  constructor
  · intro faithful
    obtain ⟨fresh, machine, loaded, done, _, memory, _⟩ :=
      faithful here starts.tainting starts.phaseNumber
    rw [starts.position] at done
    obtain ⟨other, also, executions, since⟩ := since_of_afterTurns launched here
    have same := since.start_eq launched here (starts.phaseNumber.symm ▸ starts)
    have holds := since.inPhase.holds
    rw [same, since.input, memory] at holds
    exact ⟨fresh, machine, loaded, done, holds⟩
  · rintro ⟨fresh, machine, loaded, done, holds⟩ turns session there tainting number
    obtain ⟨other, also, executions, since⟩ := since_of_afterTurns launched there
    have same := since.start_eq launched here (number.symm ▸ starts)
    subst same
    obtain ⟨freshToo, machineToo, loadedToo, doneToo, alike, recorded⟩ := since.overwritten
    rw [since.baseInput] at loaded holds
    rw [loaded, Except.ok.injEq] at loadedToo
    subst loadedToo
    rw [since.base, doneToo, Except.ok.injEq] at done
    subst done
    have unchanged : Alike also.machine machineToo := by
      refine ⟨alike.operations, alike.processor, alike.halted, ?_, fun address outside => ?_⟩
      · simpa using alike.size
      · rw [alike.byte address outside]
        exact Memory.byte_setBytes_of_holds holds address
    obtain ⟨taintingToo, now, reached, alikeNow⟩ := since.inPhase.tainting_of_phase tainting
    rw [← since.base] at doneToo recorded
    obtain ⟨last, twin, reachedToo, freshReached, alikeLast, follows⟩ := since.follows doneToo
      unchanged recorded (Nat.le_refl _) fun _ _ _ => id
    rw [reached, Except.ok.injEq] at reachedToo
    subst reachedToo
    have size : session.engine.trace.size = session.engine.basePosition + executions.length :=
      since.inPhase.describes.traceSize
    have both := Machine.AgreeOff.trans alikeNow alikeLast
    rw [← size, ← taintingToo.position] at freshReached follows
    exact ⟨fresh, twin, loaded, freshReached, both.processor, both.memory, taintingToo.position.symm,
      follows⟩

/-- A program that writes to its buffer before it reads the first byte of it. -/
def lostStore : Program where
  operations := #[.move "a" 7, .storeByte "a" 16, .loadByte "b" 17, .compareImmediate "b" 0,
    .jumpIfEqual 6, .loadByte "c" 16, .halt]
  inputAddress := 16
  input := [0, 0]
  memorySize := 32

def losesStore (session : Session) : Bool :=
  session.engine.phase = .tainting && session.engine.phaseNumber = 1 &&
    session.engine.position = session.engine.basePosition &&
    session.machine.memory.byte 16 = 0 &&
    match Machine.load { lostStore with input := session.engine.baseInput } with
    | .error _ => false
    | .ok fresh =>
      match fresh.steps session.engine.position with
      | .error _ => false
      | .ok twin => twin.memory.byte 16 = 7

theorem losesStore_spec (loses : session.losesStore) :
    session.StartsPhase 1 ∧ ¬ session.Faithful lostStore := by
  unfold losesStore at loses
  simp only [Bool.and_eq_true, decide_eq_true_eq] at loses
  obtain ⟨⟨⟨⟨tainting, number⟩, position⟩, lost⟩, fresh⟩ := loses
  refine ⟨⟨tainting, number, position⟩, ?_⟩
  rintro ⟨machine, twin, loaded, done, _, memory, _⟩
  simp only [loaded, done, decide_eq_true_eq] at fresh
  rw [memory, fresh] at lost
  simp at lost

theorem lostStore_run :
    ∃ first start, launch (.seeded 7) lostStore = .ok first ∧
      first.afterTurns 100 11 = some start ∧ start.losesStore := by
  have runs : ((launch (.seeded 7) lostStore).toOption.any fun first =>
      (first.afterTurns 100 11).any losesStore) = true := by
    decide +kernel
  simp only [Option.any_eq_true] at runs
  obtain ⟨first, launched, start, here, loses⟩ := runs
  exact ⟨first, start, eq_ok_of_toOption launched, here, loses⟩

theorem exists_not_faithful :
    ∃ first start, launch (.seeded 7) lostStore = .ok first ∧
      first.afterTurns 100 11 = some start ∧ start.engine.phase = .tainting ∧
      ¬ start.Faithful lostStore := by
  obtain ⟨first, start, launched, here, loses⟩ := lostStore_run
  obtain ⟨starts, lost⟩ := losesStore_spec loses
  exact ⟨first, start, launched, here, starts.tainting, lost⟩

theorem faithful_iff_lostStore :
    ∃ first start, launch (.seeded 7) lostStore = .ok first ∧
      first.afterTurns 100 11 = some start ∧ start.StartsPhase 1 ∧
      ¬ ∃ fresh machine,
        Machine.load { lostStore with input := start.engine.baseInput } = .ok fresh ∧
        fresh.steps start.engine.basePosition = .ok machine ∧
        machine.memory.Holds lostStore.inputBuffer.address start.engine.baseInput := by
  obtain ⟨first, start, launched, here, loses⟩ := lostStore_run
  obtain ⟨starts, lost⟩ := losesStore_spec loses
  refine ⟨first, start, launched, here, starts, fun keeps => lost ?_⟩
  exact (faithful_iff launched here starts).mpr keeps here starts.tainting starts.phaseNumber

end Session

end BranchSteer
