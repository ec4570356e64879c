import BranchSteer.Proofs.Returning

/-!
The start of a run: a program is loaded and its input is delivered to the engine. Programs that differ in
their input only lead to machines that differ in the buffer only.
-/

namespace BranchSteer

open Machine (Alike AgreeOff)

def Config.seeded (seed : UInt64) : Config := { Config.default with seed := some seed }

namespace Machine

theorem load_eq_ok {program : Program} {machine : Machine} (loaded : load program = .ok machine) :
    program.inputAddress.toNat + program.input.length ≤ program.memorySize.toNat ∧
      machine = ⟨program, ⟨codeBase, ∅⟩, (Memory.zero program.memorySize.toNat).setBytes
        program.inputAddress.toNat program.input, false, 0⟩ := by
  unfold load at loaded
  split at loaded
  · simp at loaded
  · rename_i memory written
    obtain ⟨inside, rfl⟩ := (Memory.write_eq_ok_iff _ _ _ _).mp written
    simp only [Except.ok.injEq] at loaded
    exact ⟨inside, loaded.symm⟩

theorem small_of_load {program : Program} {machine : Machine} (loaded : load program = .ok machine) :
    machine.memory.size < addressSpace := by
  obtain ⟨_, rfl⟩ := load_eq_ok loaded
  simp only [Memory.size_setBytes, Memory.zero]
  exact program.memorySize.toNat_lt

theorem load_withInput {program : Program} {machine : Machine} (loaded : load program = .ok machine)
    {input : List UInt8} (length : input.length = program.input.length) :
    ∃ fresh, load { program with input := input } = .ok fresh ∧
      AgreeOff (fun address => program.inputBuffer.contains address) fresh machine := by
  obtain ⟨inside, rfl⟩ := load_eq_ok loaded
  have written := (Memory.write_eq_ok_iff (Memory.zero program.memorySize.toNat) _
    program.inputAddress.toNat input).mpr ⟨by rw [length]; exact inside, rfl⟩
  refine ⟨⟨{ program with input := input }, ⟨codeBase, ∅⟩,
    (Memory.zero program.memorySize.toNat).setBytes program.inputAddress.toNat input, false, 0⟩,
    by simp only [load, written], rfl, rfl, rfl, by simp, fun address outside => ?_⟩
  have apart := mt (InputBuffer.contains_iff program.inputBuffer address).mpr outside
  simp only [Program.inputBuffer] at apart
  simp only [Memory.byte_setBytes]
  split
  · rw [List.getElem?_eq_none (by omega), List.getElem?_eq_none (by omega)]
  · rfl

end Machine

namespace Session

/-- The session in front of the first turn of a run. -/
def launch (config : Config) (program : Program) (drawn : Random := default) :
    Except Fault Session :=
  (Machine.load program).bind fun machine =>
    (start config machine drawn).capture machine.program.inputBuffer

theorem capture_start (config : Config) (drawn : Random) {program : Program} {machine : Machine}
    (loaded : Machine.load program = .ok machine) :
    ∃ text, (start config machine drawn).capture machine.program.inputBuffer =
      .ok ⟨({ Engine.initial config (config.generator drawn) with
        baseInput := (List.range' program.inputAddress.toNat program.input.length).map
          machine.memory.byte
        input := program.inputBuffer
        graph := .empty program.inputBuffer
        phase := .tainting } : Engine).inform text, machine⟩ := by
  obtain ⟨inside, shape⟩ := Machine.load_eq_ok loaded
  have size : machine.memory.size = program.memorySize.toNat := by simp [shape, Memory.zero]
  have small := Machine.small_of_load loaded
  have same : machine.program = program := by rw [shape]
  have ends : program.inputBuffer.end? =
      some (program.inputAddress.toNat + program.input.length) := by
    simp only [InputBuffer.end?, rangeEnd?, Program.inputBuffer]
    exact if_pos (by omega)
  have readable := (Memory.read_eq_ok_iff machine.memory program.inputBuffer.address
    program.inputBuffer.length _).mpr ⟨size ▸ inside, rfl⟩
  refine ⟨"Captured " ++ toString program.inputBuffer.length ++ " input bytes at " ++
    hexadecimal program.inputBuffer.address, ?_⟩
  have waiting : (Engine.initial config (config.generator drawn)).phase = .capturing := rfl
  simp only [capture, start, Engine.receiveInput, same, waiting, ne_eq, not_true_eq_false, if_false,
    ends, Option.isNone_some, Bool.false_eq_true, readable, Except.map]
  rfl

theorem run_of_load (config : Config) (drawn : Random) {program : Program} {machine : Machine}
    (loaded : Machine.load program = .ok machine) (stepLimit : Nat) :
    ∃ first, launch config program drawn = .ok first ∧ (start config machine drawn).run stepLimit =
      first.runTurns stepLimit (first.turnLimit stepLimit) := by
  obtain ⟨text, captured⟩ := capture_start config drawn loaded
  refine ⟨_, by rw [launch, loaded]; exact captured, ?_⟩
  have same : (start config machine drawn).machine = machine := rfl
  simp only [run, same, captured]

end Session

end BranchSteer
