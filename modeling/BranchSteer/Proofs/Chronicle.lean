import BranchSteer.Proofs.Calls
import Mathlib.Data.List.Induction

/-!
What becomes of a sequence of calls, apart from the engine behind it: the instructions that its phases
traced, the candidates that it selected, the branches that it began to resolve and the attempts that it
made.
-/

namespace BranchSteer

structure Traced where
  phase : Nat
  position : Nat
  execution : Execution

/-- The records at the end of a tainting phase, with the candidates that were just selected. -/
structure Selection where
  phase : Nat
  input : InputBuffer
  baseInput : List UInt8
  branches : Flow.Branches

structure Activation where
  phase : Nat
  position : Nat

structure Effect where
  before : Memory
  behind : Memory
  action : Action

/-- An attempt for which the process was taken back: the checkpoint and the random stream as they were right
before, and the memory in front of it and behind it. -/
structure Attempt where
  phase : Nat
  branch : Nat
  checkpoint : Nat
  target : Checkpoint
  random : Random
  before : Memory
  behind : Memory

namespace Engine

section

variable {α : Type} (shows : Engine → Decision → Effect → Option α)

/-- What a call shows that does not fail, going by the decision of the engine and by what came of it. -/
def shown (engine : Engine) (call : Call) : Option α :=
  match engine.decision? call, engine.answer call with
  | some decision, ⟨_, behind, .ok action⟩ =>
    shows engine decision ⟨call.machine.memory, behind, action⟩
  | _, _ => none

def gather (engine : Engine) : List Call → List α
  | [] => []
  | call :: rest =>
    (engine.shown shows call).toList ++
      match engine.afterCall call with
      | some after => after.gather rest
      | none => []

end

def traced? (_ : Engine) (decision : Decision) (_ : Effect) : Option Traced :=
  match decision.order with
  | .record _ execution =>
    some ⟨decision.engine.phaseNumber, decision.engine.position, execution⟩
  | _ => none

def selection? (engine : Engine) (decision : Decision) (_ : Effect) : Option Selection :=
  if engine.phase = .tainting ∧ decision.engine.phase ≠ .tainting then
    match engine.surveyAll with
    | .ok surveyed =>
      some ⟨engine.phaseNumber, engine.input, engine.baseInput, surveyed.branches⟩
    | .error _ => none
  else none

def activation? (engine : Engine) (decision : Decision) (_ : Effect) : Option Activation :=
  match decision.order with
  | .attempt resolution =>
    if engine.active.map (·.branch) = some resolution.branch then none
    else some ⟨engine.phaseNumber, resolution.branch⟩
  | _ => none

def attempt? (engine : Engine) (decision : Decision) (effect : Effect) : Option Attempt :=
  match decision.order, effect.action with
  | .attempt resolution, .rollback _ =>
    decision.engine.checkpoints[resolution.checkpoint]?.map fun target =>
      ⟨engine.phaseNumber, resolution.branch, resolution.checkpoint, target, decision.engine.random,
        effect.before, effect.behind⟩
  | _, _ => none

variable {engine middle after : Engine} {call : Call} {calls : List Call} {α : Type}
  {shows : Engine → Decision → Effect → Option α} {decision : Decision} {action : Action}
  {changed : Memory}

theorem shown_of_decision (decides : engine.decision? call = some decision)
    (done : decision.carryOut call.machine.memory = ⟨after, changed, .ok action⟩) :
    engine.shown shows call = shows engine decision ⟨call.machine.memory, changed, action⟩ := by
  simp only [shown, decides, answer_of_decision decides, done]

theorem shown_of_undecided (undecided : engine.decision? call = none) :
    engine.shown shows call = none := by
  simp only [shown, undecided]

theorem afterCalls_concat (engine : Engine) (calls : List Call) (call : Call) :
    engine.afterCalls (calls ++ [call]) =
      (engine.afterCalls calls).bind fun middle => middle.afterCall call := by
  induction calls generalizing engine with
  | nil => simp [afterCalls]
  | cons first rest ih =>
      cases here : engine.afterCall first with
      | none => simp [afterCalls, here]
      | some next => simpa [afterCalls, here] using ih next

theorem gather_concat (reached : engine.afterCalls calls = some middle) :
    engine.gather shows (calls ++ [call]) =
      engine.gather shows calls ++ (middle.shown shows call).toList := by
  induction calls generalizing engine with
  | nil =>
      rw [afterCalls, Option.some.injEq] at reached
      subst reached
      cases here : engine.afterCall call <;> simp [gather, here]
  | cons first rest ih =>
      obtain ⟨next, here, onward⟩ := afterCalls_cons.mp reached
      simp [gather, here, ih onward]

theorem afterCalls_chronicle (holds : List Call → Engine → Prop) {allowed : Call → Prop}
    (start : holds [] engine)
    (step : ∀ {calls : List Call} {middle after : Engine} {call : Call},
      engine.afterCalls calls = some middle → holds calls middle → allowed call →
        middle.afterCall call = some after → holds (calls ++ [call]) after)
    (each : ∀ call ∈ calls, allowed call) (reached : engine.afterCalls calls = some after) :
    holds calls after := by
  induction calls using List.reverseRecOn generalizing after with
  | nil =>
      rw [afterCalls, Option.some.injEq] at reached
      exact reached ▸ start
  | append_singleton earlier call ih =>
      rw [afterCalls_concat, Option.bind_eq_some_iff] at reached
      obtain ⟨middle, before, done⟩ := reached
      simp only [List.forall_mem_append, List.forall_mem_singleton] at each
      exact step before (ih each.1 before) each.2 done

end Engine

end BranchSteer
