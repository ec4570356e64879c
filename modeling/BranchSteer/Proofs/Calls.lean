import BranchSteer.Engine.Callback

/-!
Runs of the engine alone, as sequences of calls. Nothing ties a call to those before it: an execution may
contradict the trace, the program may end at any moment, and between two calls the machine may change as
it likes. So what holds behind all sequences of calls holds for every host.
-/

namespace BranchSteer

/-- What a host wants of the engine. Clearing a phase is otherwise left to the engine itself. -/
inductive Request
  | input (buffer : InputBuffer)
  | instruction (instruction : Instruction) (execution : Execution)
  | exit
  | clear

structure Call where
  machine : Machine
  request : Request

def Call.blank (request : Request) : Call :=
  ⟨⟨⟨#[], 16, [], 32⟩, ⟨codeBase, ∅⟩, .zero 32, false, 0⟩, request⟩

def Random.scattered : Random := ⟨fun number => [UInt32.ofNat number * 2654435761], 0, []⟩

/-- The calls for a comparison of two bytes of the input and a branch on its outcome, behind which
execution goes on somewhere. -/
def comparison (taken : Bool) (behind : Nat) : List Call := [
  .blank (.instruction
    (((Instruction.plain 100 "cmp").writing [flagsName]).accessingMemory true false)
    { Execution.plain 100 with reads := [⟨16, 2⟩] }),
  .blank (.instruction (((Instruction.plain 104 "je").reading [flagsName]).branching 200 108)
    { Execution.plain 104 with taken := some taken }),
  .blank (.instruction (.plain behind "nop") (.plain behind))]

namespace Engine

def answer (engine : Engine) (call : Call) : Reaction :=
  match call.request with
  | .input buffer =>
    match engine.receiveInput call.machine.memory buffer with
    | .ok after => ⟨after, call.machine.memory, .ok .proceed⟩
    | .error fault => ⟨engine, call.machine.memory, .error fault⟩
  | .instruction instruction execution =>
    engine.beforeInstruction call.machine.memory call.machine.processor instruction execution
  | .exit => engine.beforeExit call.machine.memory
  | .clear => ⟨engine.clearPhase, call.machine.memory, .ok .proceed⟩

def decision? (engine : Engine) (call : Call) : Option Decision :=
  match call.request with
  | .instruction instruction execution =>
    some (engine.decide call.machine.processor instruction execution)
  | .exit => some engine.decideExit
  | .input _ | .clear => none

def seed? (engine : Engine) (call : Call) : Option (List UInt8) :=
  (engine.decision? call).bind fun decision =>
    match decision.order with
    | .restart seed => some seed
    | _ => none

def afterCall (engine : Engine) (call : Call) : Option Engine :=
  match (engine.answer call).result with
  | .ok _ => some (engine.answer call).engine
  | .error _ => none

def afterCalls (engine : Engine) : List Call → Option Engine
  | [] => some engine
  | call :: rest => (engine.afterCall call).bind fun after => after.afterCalls rest

variable {engine middle after : Engine} {call : Call} {calls rest : List Call}

theorem answer_of_decision {decision : Decision} (decides : engine.decision? call = some decision) :
    engine.answer call = decision.carryOut call.machine.memory := by
  obtain ⟨machine, request⟩ := call
  cases request with
  | input buffer => simp [decision?] at decides
  | instruction instruction execution =>
      simp only [decision?, Option.some.injEq] at decides
      simp only [answer, beforeInstruction, decides]
  | exit =>
      simp only [decision?, Option.some.injEq] at decides
      simp only [answer, beforeExit, decides]
  | clear => simp [decision?] at decides

theorem afterCall_eq_some (done : engine.afterCall call = some after) :
    ∃ memory action, engine.answer call = ⟨after, memory, .ok action⟩ := by
  unfold afterCall at done
  generalize engine.answer call = reaction at done ⊢
  obtain ⟨behind, memory, fault | action⟩ := reaction
  · simp at done
  · simp only [Option.some.injEq] at done
    exact ⟨memory, action, by rw [done]⟩

theorem afterCalls_cons : engine.afterCalls (call :: rest) = some after ↔
    ∃ middle, engine.afterCall call = some middle ∧ middle.afterCalls rest = some after :=
  Option.bind_eq_some_iff

theorem afterCalls_preserve {holds : Engine → Prop} {allowed : Call → Prop}
    (step : ∀ {engine after : Engine} {call : Call}, holds engine → allowed call →
      engine.afterCall call = some after → holds after)
    (start : holds engine) (each : ∀ call ∈ calls, allowed call)
    (reached : engine.afterCalls calls = some after) : holds after := by
  induction calls generalizing engine with
  | nil =>
      rw [afterCalls, Option.some.injEq] at reached
      exact reached ▸ start
  | cons call rest ih =>
      rw [List.forall_mem_cons] at each
      obtain ⟨middle, done, onward⟩ := afterCalls_cons.mp reached
      exact ih (step start each.1 done) each.2 onward

end Engine

end BranchSteer
