import BranchSteer.Proofs.OperandValues
import Mathlib.Data.List.Induction

/-!
What a trace does to operands, told without a graph. An event is the execution of an instruction at a
position. A byte that is read before anything wrote it reaches the positions of a chain: each of them reads
what the one before has left in some operand. The values of two runs of the same events agree wherever all
bytes that reach a position agree at the start.
-/

namespace BranchSteer.Flow

structure Event where
  instruction : Instruction
  execution : Execution
  position : Nat

namespace Event

def sources (event : Event) : Std.ExtTreeSet Operand := event.instruction.sources event.execution

def destinations (event : Event) : Std.ExtTreeSet Operand :=
  event.instruction.destinations event.execution

def Reads (event : Event) : Operand → Prop
  | .register name => name ∈ event.instruction.readRegisters
  | .memory address => ∃ access ∈ event.execution.reads,
      access.address ≤ address ∧ address < access.address + access.length

def Writes (event : Event) : Operand → Prop
  | .register name => name ∈ event.instruction.writtenRegisters ∨
      event.instruction.isBranch ∧ name = instructionPointerName
  | .memory address => ∃ access ∈ event.execution.writes,
      access.address ≤ address ∧ address < access.address + access.length

theorem mem_accesses {accesses : List MemoryRange} (inside : ∀ access ∈ accesses, access.end?.isSome)
    (address : Nat) : address ∈ accesses.flatMap MemoryRange.addresses ↔
      ∃ access ∈ accesses, access.address ≤ address ∧ address < access.address + access.length := by
  rw [List.mem_flatMap]
  apply exists_congr
  intro access
  apply and_congr_right
  intro member
  have fits := inside access member
  unfold MemoryRange.end? rangeEnd? at fits
  split at fits
  · rename_i below
    exact MemoryRange.mem_addresses_of_le (Nat.le_refl _) below address
  · simp at fits

theorem inside_of_escapes {execution : Execution} (stays : execution.escapingAccess? = none) :
    (∀ access ∈ execution.reads, access.end?.isSome) ∧
      ∀ access ∈ execution.writes, access.end?.isSome := by
  have each := List.find?_eq_none.mp stays
  simp only [List.mem_append, Option.isNone_iff_eq_none] at each
  constructor
  · intro access member
    exact Option.isSome_iff_ne_none.mpr (each access (Or.inl member))
  · intro access member
    exact Option.isSome_iff_ne_none.mpr (each access (Or.inr member))

theorem mem_sources_iff {event : Event} (stays : event.execution.escapingAccess? = none)
    (operand : Operand) : operand ∈ event.sources ↔ event.Reads operand := by
  cases operand with
  | register name => exact Instruction.register_mem_sources _ _ name
  | memory address =>
      exact (Instruction.mem_sources _ _ address).trans
        (mem_accesses (inside_of_escapes stays).1 address)

theorem mem_destinations_iff {event : Event} (stays : event.execution.escapingAccess? = none)
    (operand : Operand) : operand ∈ event.destinations ↔ event.Writes operand := by
  cases operand with
  | register name => exact Instruction.register_mem_destinations _ _ name
  | memory address =>
      exact (Instruction.mem_destinations _ _ address).trans
        (mem_accesses (inside_of_escapes stays).2 address)

end Event

def InOrder (events : List Event) : Prop :=
  events.Pairwise fun earlier later => earlier.position < later.position

def comparisonEvents : List Event := [
  ⟨(Instruction.plain 100 "cmp").writing ["flags"], { Execution.plain 100 with reads := [⟨16, 2⟩] }, 1⟩,
  ⟨((Instruction.plain 104 "je").reading ["flags"]).branching 200 108, Execution.plain 104, 2⟩]

structure Usage where
  reads : Operand → Nat → Prop
  writes : Operand → Nat → Prop

namespace Usage

def declared (events : List Event) : Usage where
  reads operand position := ∃ event ∈ events, event.position = position ∧ event.Reads operand
  writes operand position := ∃ event ∈ events, event.position = position ∧ event.Writes operand

def tracked (events : List Event) : Usage where
  reads operand position := ∃ event ∈ events, event.position = position ∧ operand ∈ event.sources
  writes operand position :=
    ∃ event ∈ events, event.position = position ∧ operand ∈ event.destinations

theorem declared_eq_tracked {events : List Event}
    (stay : ∀ event ∈ events, event.execution.escapingAccess? = none) :
    declared events = tracked events := by
  have reads : (declared events).reads = (tracked events).reads := by
    funext operand position
    apply propext
    apply exists_congr
    intro event
    apply and_congr_right
    intro member
    rw [Event.mem_sources_iff (stay event member)]
  have writes : (declared events).writes = (tracked events).writes := by
    funext operand position
    apply propext
    apply exists_congr
    intro event
    apply and_congr_right
    intro member
    rw [Event.mem_destinations_iff (stay event member)]
  exact congrArg₂ Usage.mk reads writes

/-- What an operand holds in front of a position was left there by a write, or by none at all. -/
def InForce (usage : Usage) (operand : Operand) (position : Nat) : Option Nat → Prop
  | none => ∀ earlier < position, ¬ usage.writes operand earlier
  | some first => usage.writes operand first ∧ first < position ∧
      ∀ between, first < between → between < position → ¬ usage.writes operand between

/-- A chain of positions along which an operand reaches a position: the first one reads it before anything
wrote it, and each other one reads what the one before has left in an operand. -/
inductive Leads (usage : Usage) (origin : Operand) : Nat → List Nat → Prop
  | first {position : Nat} : usage.reads origin position →
      (∀ earlier < position, ¬ usage.writes origin earlier) → Leads usage origin position [position]
  | next {before position : Nat} {chain : List Nat} {operand : Operand} :
      Leads usage origin before chain → before < position → usage.writes operand before →
      usage.reads operand position →
      (∀ between, before < between → between < position → ¬ usage.writes operand between) →
      Leads usage origin position (chain ++ [position])

theorem InForce.congr {one other : Usage} {operand : Operand} {position : Nat}
    (same : ∀ earlier < position, one.writes operand earlier ↔ other.writes operand earlier)
    (writer : Option Nat) :
    one.InForce operand position writer ↔ other.InForce operand position writer := by
  cases writer with
  | none =>
      apply forall_congr'
      intro earlier
      apply imp_congr_right
      intro below
      exact not_congr (same earlier below)
  | some first =>
      constructor
      · rintro ⟨writes, below, last⟩
        refine ⟨(same first below).mp writes, below, ?_⟩
        intro between above upper
        exact mt (same between upper).mpr (last between above upper)
      · rintro ⟨writes, below, last⟩
        refine ⟨(same first below).mpr writes, below, ?_⟩
        intro between above upper
        exact mt (same between upper).mp (last between above upper)

theorem Leads.ne_nil {usage : Usage} {origin : Operand} {position : Nat} {chain : List Nat}
    (leads : usage.Leads origin position chain) : chain ≠ [] := by
  cases leads with
  | first _ _ => simp
  | next _ _ _ _ _ => simp

end Usage

/-! Runs of events on values, under a semantics that only has to respect their operands. -/

section Values

variable {Value : Type}

/-- An effect of an event leaves alone what the event does not write, and what it writes is a function of
what the event reads. -/
structure Event.Computes (event : Event) (effect : (Operand → Value) → Operand → Value) : Prop where
  frame : ∀ values operand, operand ∉ event.destinations → effect values operand = values operand
  determined : ∀ left right, (∀ source ∈ event.sources, left source = right source) →
    ∀ operand ∈ event.destinations, effect left operand = effect right operand

def valuesAfter (effect : Event → (Operand → Value) → Operand → Value) (events : List Event)
    (initial : Operand → Value) : Operand → Value :=
  events.foldl (fun values event => effect event values) initial

theorem valuesAfter_frame {effect : Event → (Operand → Value) → Operand → Value}
    {events : List Event} {operand : Operand}
    (computes : ∀ event ∈ events, event.Computes (effect event))
    (unwritten : ∀ event ∈ events, operand ∉ event.destinations) (initial : Operand → Value) :
    valuesAfter effect events initial operand = initial operand := by
  induction events generalizing initial with
  | nil => rfl
  | cons event rest ih =>
      rw [List.forall_mem_cons] at computes unwritten
      have later := ih computes.2 unwritten.2 (effect event initial)
      exact later.trans (computes.1.frame initial operand unwritten.1)

theorem exists_last_writer (events : List Event) (operand : Operand) :
    (∀ event ∈ events, operand ∉ event.destinations) ∨
      ∃ before writer behind, events = before ++ writer :: behind ∧ operand ∈ writer.destinations ∧
        ∀ event ∈ behind, operand ∉ event.destinations := by
  induction events with
  | nil => simp
  | cons event rest ih =>
      rcases ih with unwritten | ⟨before, writer, behind, rfl, writes, last⟩
      · by_cases writes : operand ∈ event.destinations
        · exact Or.inr ⟨[], event, rest, rfl, writes, unwritten⟩
        · exact Or.inl (List.forall_mem_cons.mpr ⟨writes, unwritten⟩)
      · exact Or.inr ⟨event :: before, writer, behind, rfl, writes, last⟩

theorem position_lt_of_before {before behind : List Event} {event other : Event}
    (inOrder : InOrder (before ++ event :: behind)) (member : other ∈ before) :
    other.position < event.position :=
  (List.pairwise_append.mp inOrder).2.2 other member event List.mem_cons_self

theorem position_lt_of_behind {before behind : List Event} {event other : Event}
    (inOrder : InOrder (before ++ event :: behind)) (member : other ∈ behind) :
    event.position < other.position :=
  (List.pairwise_cons.mp (List.pairwise_append.mp inOrder).2.1).1 other member

theorem mem_before_of_lt {before behind : List Event} {event other : Event}
    (inOrder : InOrder (before ++ event :: behind)) (member : other ∈ before ++ event :: behind)
    (below : other.position < event.position) : other ∈ before := by
  rcases List.mem_append.mp member with early | late
  · exact early
  · rcases List.mem_cons.mp late with rfl | later
    · omega
    · have above := position_lt_of_behind inOrder later
      omega

theorem sources_agree {effect : Event → (Operand → Value) → Operand → Value} {events : List Event}
    (inOrder : InOrder events) (computes : ∀ event ∈ events, event.Computes (effect event))
    {left right : Operand → Value}
    (registers : ∀ name, left (.register name) = right (.register name))
    (before : List Event) {event : Event} {behind : List Event}
    (shape : events = before ++ event :: behind)
    (bytes : ∀ {address : Nat} {chain : List Nat},
      (Usage.tracked events).Leads (.memory address) event.position chain →
        left (.memory address) = right (.memory address)) :
    ∀ source ∈ event.sources,
      valuesAfter effect before left source = valuesAfter effect before right source := by
  induction length : before.length using Nat.strongRecOn generalizing before event behind with
  | ind count ih =>
      subst length
      intro source member
      have listed : event ∈ events := by simp [shape]
      have reads : (Usage.tracked events).reads source event.position :=
        ⟨event, listed, rfl, member⟩
      rcases exists_last_writer before source with
        unwritten | ⟨first, writer, rest, rfl, writes, last⟩
      · have fresh : ∀ earlier < event.position, ¬ (Usage.tracked events).writes source earlier := by
          rintro earlier below ⟨other, known, rfl, written⟩
          exact unwritten other (mem_before_of_lt (shape ▸ inOrder) (shape ▸ known) below) written
        have each : ∀ other ∈ before, other.Computes (effect other) := by
          intro other known
          exact computes other (by simp [shape, known])
        rw [valuesAfter_frame each unwritten, valuesAfter_frame each unwritten]
        cases source with
        | register name => exact registers name
        | memory address => exact bytes (.first reads fresh)
      · have there : events = first ++ writer :: (rest ++ event :: behind) := by simp [shape]
        have known : writer ∈ events := by simp [there]
        have leaves : (Usage.tracked events).writes source writer.position :=
          ⟨writer, known, rfl, writes⟩
        have ahead : writer.position < event.position :=
          position_lt_of_before (shape ▸ inOrder) (by simp)
        have kept : ∀ between, writer.position < between → between < event.position →
            ¬ (Usage.tracked events).writes source between := by
          rintro between above below ⟨other, memberToo, rfl, written⟩
          have early := mem_before_of_lt (shape ▸ inOrder) (shape ▸ memberToo) below
          rcases List.mem_append.mp early with earlier | later
          · have order := position_lt_of_before (there ▸ inOrder) earlier
            omega
          · rcases List.mem_cons.mp later with rfl | behindWriter
            · omega
            · exact last other behindWriter written
        have agree := ih first.length (by simp) first there
          (fun leads => bytes (leads.next ahead leaves reads kept)) rfl
        have each : ∀ other ∈ rest, other.Computes (effect other) := by
          intro other member
          exact computes other (by simp [shape, member])
        have split : ∀ initial, valuesAfter effect (first ++ writer :: rest) initial source =
            effect writer (valuesAfter effect first initial) source := by
          intro initial
          unfold valuesAfter
          rw [List.foldl_append, List.foldl_cons]
          exact valuesAfter_frame each last _
        rw [split, split]
        exact (computes writer known).determined _ _ agree source writes

end Values

end BranchSteer.Flow
