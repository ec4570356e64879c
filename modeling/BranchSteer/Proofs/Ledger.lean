import BranchSteer.Proofs.Guarantees
import BranchSteer.Proofs.Seeds
import Mathlib.Algebra.GroupWithZero.Nat

/-!
The books of a run. Its phases are summed up one by one, each once, at the moment that nothing is counted
any more in it, and its records are filed by phase and position. So what the summaries add up to is what
the report tells.
-/

namespace BranchSteer

def BranchSummary.Precedes (first second : BranchSummary) : Prop :=
  first.phase < second.phase ∨ first.phase = second.phase ∧ first.position < second.position

theorem Branch.dependsOnInput_iff (branch : Branch) :
    branch.dependsOnInput ↔ branch.summary.inputDependencies ≠ [] := by
  simp only [dependsOnInput, summary, ← Std.ExtTreeSet.isEmpty_toList, Bool.not_eq_true',
    ne_eq, ← Bool.not_eq_true, List.isEmpty_iff]

namespace Engine

def currentRecords (engine : Engine) : List BranchSummary :=
  engine.branches.inTraceOrder.map Branch.summary

def archivedRecords (engine : Engine) : List BranchSummary := engine.archive.map Branch.summary

def records (engine : Engine) : List BranchSummary :=
  engine.archivedRecords ++ engine.currentRecords

structure Filed (engine : Engine) : Prop where
  keyed : Flow.Branches.Keyed engine.branches
  current : ∀ record ∈ engine.currentRecords, record.phase = engine.phaseNumber
  earlier : ∀ record ∈ engine.archivedRecords, record.phase < engine.phaseNumber
  ordered : engine.archivedRecords.Pairwise BranchSummary.Precedes
  bypassed : ∀ record ∈ engine.records, record.bypassed → record.inputDependencies ≠ []

/-- The phases up to a number are summed up. The summaries tell of some records, and of all rollbacks but
those that started a phase and those of the phase that is under way. -/
structure Accounts (engine : Engine) (phases underway : Nat) (records : List BranchSummary) :
    Prop where
  phases : engine.summaries.map (·.phase) = List.range phases
  rollbacks : engine.rollbacks =
    (engine.summaries.map (·.rollbacks)).sum + engine.phaseNumber + underway
  branches : (engine.summaries.map (·.branches)).sum = records.length
  resolved : (engine.summaries.map (·.resolved)).sum = records.countP (·.resolved)
  bypassed : (engine.summaries.map (·.bypassed)).sum = records.countP (·.bypassed)

def Unsettled (engine : Engine) : Prop :=
  engine.Accounts engine.phaseNumber engine.rollbacksInPhase engine.archivedRecords

def Settled (engine : Engine) : Prop := engine.Accounts (engine.phaseNumber + 1) 0 engine.records

structure Balanced (engine : Engine) : Prop where
  filed : engine.Filed
  unsettled : engine.phase ≠ .finished → engine.Unsettled
  settled : engine.phase = .finished → engine.Settled

variable {engine middle after seeking taken : Engine} {call : Call}

theorem Filed.pairwise (filed : engine.Filed) :
    engine.records.Pairwise BranchSummary.Precedes := by
  rw [records, List.pairwise_append]
  refine ⟨filed.ordered, ?_, fun early archived late current => Or.inl ?_⟩
  · rw [currentRecords, List.pairwise_map]
    refine filed.keyed.increasing.imp_of_mem fun {first second} listed listedToo less => ?_
    have phase := filed.current _ (List.mem_map_of_mem listed)
    have phaseToo := filed.current _ (List.mem_map_of_mem listedToo)
    exact Or.inr ⟨phase.trans phaseToo.symm, less⟩
  · rw [filed.current late current]
    exact filed.earlier early archived

theorem Filed.of_records (filed : engine.Filed) (keyed : Flow.Branches.Keyed after.branches)
    (phase : after.phaseNumber = engine.phaseNumber)
    (current : after.currentRecords = engine.currentRecords)
    (archived : after.archivedRecords = engine.archivedRecords) : after.Filed := by
  refine ⟨keyed, ?_, ?_, ?_, ?_⟩
  · rw [current, phase]
    exact filed.current
  · rw [archived, phase]
    exact filed.earlier
  · rw [archived]
    exact filed.ordered
  · rw [records, current, archived]
    exact filed.bypassed

theorem Filed.congr (filed : engine.Filed) (branches : after.branches = engine.branches)
    (archive : after.archive = engine.archive) (phase : after.phaseNumber = engine.phaseNumber) :
    after.Filed := by
  refine filed.of_records ?_ phase ?_ ?_
  · rw [branches]
    exact filed.keyed
  · rw [currentRecords, branches, currentRecords]
  · rw [archivedRecords, archive, archivedRecords]

theorem Accounts.congr {phases underway : Nat} {records : List BranchSummary}
    (accounts : engine.Accounts phases underway records)
    (summaries : after.summaries = engine.summaries) (rollbacks : after.rollbacks = engine.rollbacks)
    (phase : after.phaseNumber = engine.phaseNumber) : after.Accounts phases underway records := by
  obtain ⟨numbered, spent, branches, resolved, bypassed⟩ := accounts
  rw [← summaries] at numbered spent branches resolved bypassed
  rw [← rollbacks, ← phase] at spent
  exact ⟨numbered, spent, branches, resolved, bypassed⟩

theorem Balanced.congr (balanced : engine.Balanced) (branches : after.branches = engine.branches)
    (archive : after.archive = engine.archive) (summaries : after.summaries = engine.summaries)
    (rollbacks : after.rollbacks = engine.rollbacks)
    (inPhase : after.rollbacksInPhase = engine.rollbacksInPhase)
    (number : after.phaseNumber = engine.phaseNumber)
    (finished : after.phase = .finished ↔ engine.phase = .finished) : after.Balanced := by
  obtain ⟨filed, unsettled, settled⟩ := balanced
  refine ⟨filed.congr branches archive number, fun active => ?_, fun ended => ?_⟩
  · rw [Unsettled, number, inPhase, archivedRecords, archive]
    exact (unsettled (mt finished.mpr active)).congr summaries rollbacks number
  · rw [Settled, number, records, archivedRecords, archive, currentRecords, branches]
    exact (settled (finished.mp ended)).congr summaries rollbacks number

theorem Filed.revises (filed : engine.Filed) (revises : engine.Revises middle) : middle.Filed := by
  have archived : middle.archivedRecords = engine.archivedRecords := by
    rw [archivedRecords, revises.archive, archivedRecords]
  have phase := revises.phaseNumber
  refine ⟨revises.branches.keyed filed.keyed Branch.Rejudged.position, ?_, ?_, ?_, ?_⟩
  · rw [currentRecords, List.forall_mem_map]
    intro branch member
    obtain ⟨_, old, listed, rejudged⟩ := revises.branches.exists_of_mem member
    exact rejudged.phase.trans ((filed.current _ (List.mem_map_of_mem listed)).trans phase.symm)
  · rw [archived, phase]
    exact filed.earlier
  · rw [archived]
    exact filed.ordered
  · have bypassed := filed.bypassed
    simp only [records, List.forall_mem_append, archived] at bypassed ⊢
    refine ⟨bypassed.1, ?_⟩
    rw [currentRecords, List.forall_mem_map]
    intro branch member givenUp
    obtain ⟨_, old, listed, rejudged⟩ := revises.branches.exists_of_mem member
    rw [← Branch.dependsOnInput_iff]
    rcases rejudged.bypassed givenUp with earlier | depends
    · have known := bypassed.2 _ (List.mem_map_of_mem listed) earlier
      exact rejudged.depends (old.dependsOnInput_iff.mpr known)
    · exact depends

theorem Filed.record (filed : engine.Filed) {position : Nat} {branch : Branch}
    (created : branch.Created engine.phaseNumber position)
    (archive : after.archive = engine.archive) (phase : after.phaseNumber = engine.phaseNumber)
    (branches : after.branches = engine.branches.insert position branch) : after.Filed := by
  have archived : after.archivedRecords = engine.archivedRecords := by
    rw [archivedRecords, archive, archivedRecords]
  refine ⟨?_, ?_, ?_, ?_, ?_⟩
  · rw [branches]
    exact filed.keyed.insert created.position
  · rw [currentRecords, branches, List.forall_mem_map, phase]
    intro other member
    rcases Flow.Branches.mem_insert member with old | rfl
    · exact filed.current _ (List.mem_map_of_mem old)
    · exact created.phase
  · rw [archived, phase]
    exact filed.earlier
  · rw [archived]
    exact filed.ordered
  · have bypassed := filed.bypassed
    simp only [records, List.forall_mem_append, archived] at bypassed ⊢
    refine ⟨bypassed.1, ?_⟩
    rw [currentRecords, branches, List.forall_mem_map]
    intro other member givenUp
    rcases Flow.Branches.mem_insert member with old | rfl
    · exact bypassed.2 _ (List.mem_map_of_mem old) givenUp
    · simp [Branch.summary, (Branch.isUndecided_iff _).mp created.undecided] at givenUp

theorem Filed.seeks (filed : middle.Filed) (seeks : engine.Seeks call middle seeking) :
    seeking.Filed ∧ seeking.records = middle.records := by
  obtain ⟨summaries, log, shape⟩ := addSummary_eq middle
  rcases seeks.cases_takeSeed with rfl | rfl
  · rw [shape]
    exact ⟨filed.congr rfl rfl rfl, rfl⟩
  · have keyed : Flow.Branches.Keyed middle.addSummary.branches := by
      rw [shape]
      exact filed.keyed
    obtain ⟨marked, _⟩ := takeSeed_searched keyed
    have phase := seeks.phaseNumber
    have current : middle.addSummary.takeSeed.1.currentRecords = middle.currentRecords := by
      refine marked.current.trans ?_
      rw [shape, currentRecords]
    have archived : middle.addSummary.takeSeed.1.archivedRecords = middle.archivedRecords := by
      refine marked.archive.trans ?_
      rw [shape, archivedRecords]
    exact ⟨filed.of_records marked.keyed phase current archived, by
      rw [records, current, archived, records]⟩

theorem restarted_records (taken : Engine) (seed : List UInt8) (text : String) :
    ((taken.restarted seed).inform text).archivedRecords = taken.records ∧
      ((taken.restarted seed).inform text).currentRecords = [] := by
  constructor
  · simp only [archivedRecords, inform, note, Engine.restarted, clearPhase, List.map_append,
      List.map_map, records, currentRecords]
    rfl
  · exact congrArg (List.map Branch.summary) inTraceOrder_empty

theorem Filed.restarted (filed : taken.Filed) (seed : List UInt8) (text : String) :
    ((taken.restarted seed).inform text).Filed := by
  obtain ⟨archived, current⟩ := restarted_records taken seed text
  have number : ((taken.restarted seed).inform text).phaseNumber = taken.phaseNumber + 1 := rfl
  refine ⟨fun position branch found => ?_, ?_, ?_, ?_, ?_⟩
  · simp [inform, note, Engine.restarted, clearPhase] at found
  · simp [current]
  · rw [archived, number, records, List.forall_mem_append]
    refine ⟨fun record member => Nat.lt_succ_of_lt (filed.earlier record member),
      fun record member => ?_⟩
    rw [filed.current record member]
    exact Nat.lt_succ_self _
  · rw [archived]
    exact filed.pairwise
  · rw [records, archived, current, List.append_nil]
    exact filed.bypassed

theorem currentSummary_counts (engine : Engine) :
    engine.currentSummary.branches = engine.currentRecords.length ∧
      engine.currentSummary.resolved = engine.currentRecords.countP (·.resolved) ∧
      engine.currentSummary.bypassed = engine.currentRecords.countP (·.bypassed) := by
  have counts : ∀ (predicate : Branch → Bool) (told : BranchSummary → Bool),
      (told ∘ Branch.summary) = predicate →
        engine.countBranches predicate = engine.currentRecords.countP told := by
    rintro _ told rfl
    rw [countBranches, ← List.countP_eq_length_filter, currentRecords, List.countP_map]
  refine ⟨?_, counts _ _ rfl, counts _ _ rfl⟩
  rw [currentRecords, List.length_map, Flow.Branches.inTraceOrder, List.length_map,
    Std.ExtTreeMap.length_toList]
  rfl

theorem Accounts.length {phases underway : Nat} {records : List BranchSummary}
    (accounts : engine.Accounts phases underway records) : engine.summaries.length = phases := by
  have lengths := congrArg List.length accounts.phases
  rwa [List.length_map, List.length_range] at lengths

theorem Unsettled.addSummary (unsettled : engine.Unsettled) : engine.addSummary.Settled := by
  -- The check for an earlier summary fails, since those of the earlier phases are as many as they.
  have unsummed : ¬ engine.summaries.length > engine.phaseNumber := by
    rw [unsettled.length]
    exact Nat.lt_irrefl _
  obtain ⟨branches, resolved, bypassed⟩ := engine.currentSummary_counts
  have shape : engine.addSummary = { engine.inform engine.currentSummary.text with
      summaries := engine.summaries ++ [engine.currentSummary] } := by
    rw [Engine.addSummary, if_neg unsummed]
  rw [shape]
  constructor
  · simp only [inform, note, List.map_append, unsettled.phases, List.range_succ]
    rfl
  · simp only [inform, note, List.map_append, List.sum_append, unsettled.rollbacks, List.map_cons,
      List.map_nil, List.sum_singleton]
    simp only [currentSummary]
    omega
  · simp only [inform, note, List.map_append, List.sum_append, unsettled.branches, List.map_cons,
      List.map_nil, List.sum_singleton, branches]
    exact List.length_append.symm
  · simp only [inform, note, List.map_append, List.sum_append, unsettled.resolved, List.map_cons,
      List.map_nil, List.sum_singleton, resolved]
    exact List.countP_append.symm
  · simp only [inform, note, List.map_append, List.sum_append, unsettled.bypassed, List.map_cons,
      List.map_nil, List.sum_singleton, bypassed]
    exact List.countP_append.symm

theorem Settled.addSummary (settled : engine.Settled) : engine.addSummary = engine := by
  refine if_pos ?_
  rw [settled.length]
  exact Nat.lt_succ_self _

theorem Ends.settled {exhausted : Bool} (ends : engine.Ends exhausted after)
    (sums : engine.Unsettled ∨ engine.Settled) : after.Settled ∧ after.phase = .finished := by
  have settled : engine.addSummary.Settled := by
    rcases sums with unsettled | settled
    · exact unsettled.addSummary
    · rw [settled.addSummary]
      exact settled
  obtain ⟨summaries, log, shape⟩ := addSummary_eq engine
  obtain ⟨text, rfl⟩ := ends.shape
  rw [shape] at settled ⊢
  exact ⟨Accounts.congr settled rfl rfl rfl, rfl⟩

theorem Ends.balanced {exhausted : Bool} (ends : engine.Ends exhausted after)
    (filed : engine.Filed) (sums : engine.Unsettled ∨ engine.Settled) : after.Balanced := by
  obtain ⟨settled, finished⟩ := ends.settled sums
  refine ⟨?_, fun active => absurd finished active, fun _ => settled⟩
  obtain ⟨log, rfl⟩ := ends.shape
  exact filed.congr rfl rfl rfl

theorem Filed.rollsBack (filed : engine.Filed) (rollsBack : engine.RollsBack after) :
    after.Filed := by
  rw [rollsBack.frame]
  exact filed.congr rfl rfl rfl

theorem Unsettled.revises (unsettled : engine.Unsettled) (revises : engine.Revises middle) :
    middle.Unsettled := by
  rw [revises.frame]
  exact Accounts.congr unsettled rfl rfl rfl

theorem Unsettled.rollsBack (unsettled : engine.Unsettled) (rollsBack : engine.RollsBack after) :
    after.Unsettled := by
  rw [rollsBack.frame]
  refine ⟨unsettled.phases, ?_, unsettled.branches, unsettled.resolved, unsettled.bypassed⟩
  simp only [unsettled.rollbacks, Nat.add_assoc]

theorem Unsettled.seeks (unsettled : middle.Unsettled) (filed : middle.Filed)
    (seeks : engine.Seeks call middle seeking) : seeking.Settled := by
  have settled := unsettled.addSummary
  obtain ⟨summaries, log, shape⟩ := addSummary_eq middle
  have frame := seeks.frame
  have summed : middle.addSummary.records = seeking.records := by
    rw [(filed.seeks seeks).2, shape]
    rfl
  have numbered : middle.addSummary.phaseNumber = seeking.phaseNumber := by
    rw [seeks.phaseNumber, shape]
  have spent : seeking.rollbacks = middle.rollbacks := (congrArg Engine.rollbacks frame :)
  have rollbacks : middle.addSummary.rollbacks = middle.rollbacks := by rw [shape]
  rw [Settled, summed, numbered] at settled
  exact settled.congr (congrArg Engine.summaries frame :) (spent.trans rollbacks.symm)
    numbered.symm

theorem Settled.restarted (settled : seeking.Settled) (rollsBack : seeking.RollsBack taken)
    (seed : List UInt8) (text : String) : ((taken.restarted seed).inform text).Unsettled := by
  have archived := (restarted_records taken seed text).1
  have same : taken.records = seeking.records := by
    rw [rollsBack.frame]
    rfl
  rw [Unsettled, archived, same, rollsBack.frame]
  refine ⟨settled.phases, ?_, settled.branches, settled.resolved, settled.bypassed⟩
  -- The rollback that starts the phase is counted by the number of the phase from now on.
  simp only [inform, note, Engine.restarted, clearPhase, settled.rollbacks]
  omega

theorem Balanced.advances (balanced : engine.Balanced) (advances : engine.Advances call after) :
    after.Balanced := by
  have judged : ∀ {middle : Engine}, engine.phase = .tainting ∨ engine.phase = .rollbacking →
      engine.Revises middle → middle.Filed ∧ middle.Unsettled := by
    intro middle active revises
    refine ⟨balanced.filed.revises revises, (balanced.unsettled ?_).revises revises⟩
    rcases active with same | same <;> simp [same]
  cases advances with
  | rest idle goesOn => exact balanced
  | receive capturing goesOn baseInput input log =>
      exact balanced.congr rfl rfl rfl rfl rfl rfl (by simp [capturing])
  | record tainting goesOn _ frame branches =>
      have phase : after.phase = engine.phase := (congrArg Engine.phase frame :)
      rcases branches with same | ⟨position, branch, created, inserted⟩
      · exact balanced.congr same (congrArg Engine.archive frame :)
          (congrArg Engine.summaries frame :) (congrArg Engine.rollbacks frame :)
          (congrArg Engine.rollbacksInPhase frame :) (congrArg Engine.phaseNumber frame :)
          (by rw [phase])
      · have active : engine.phase ≠ .finished := by simp [tainting]
        refine ⟨balanced.filed.record created (congrArg Engine.archive frame :)
          (congrArg Engine.phaseNumber frame :) inserted, fun _ => ?_,
          fun finished => absurd (phase.symm.trans finished) active⟩
        rw [frame]
        exact (balanced.unsettled active).congr rfl rfl rfl
  | follow rollbacking goesOn position checkpoints =>
      exact balanced.congr rfl rfl rfl rfl rfl rfl Iff.rfl
  | resolve active goesOn middle revises _ rollsBack =>
      obtain ⟨filed, sums⟩ := judged active revises
      exact ⟨filed.rollsBack rollsBack, fun _ => sums.rollsBack rollsBack,
        by simp [rollsBack.phase, revises.phase]⟩
  | exhaust active goesOn middle revises _ ends =>
      obtain ⟨filed, sums⟩ := judged active revises
      exact ends.balanced filed (Or.inl sums)
  | finish active middle revises closed seeking seeks exhausted _ ends =>
      obtain ⟨filed, sums⟩ := judged active revises
      exact ends.balanced (filed.seeks seeks).1 (Or.inr (sums.seeks filed seeks))
  | restart active middle revises closed seeking seed decides found taken rollsBack text =>
      have seeks : engine.Seeks call middle seeking := .seed seeking seed decides found
      obtain ⟨filed, sums⟩ := judged active revises
      exact ⟨((filed.seeks seeks).1.rollsBack rollsBack).restarted seed text,
        fun _ => (sums.seeks filed seeks).restarted rollsBack seed text, nofun⟩

theorem balanced_initial (config : Config) (random : Random) : (initial config random).Balanced := by
  have current : (initial config random).currentRecords = [] :=
    congrArg (List.map Branch.summary) inTraceOrder_empty
  have archived : (initial config random).archivedRecords = [] := rfl
  refine ⟨⟨fun position branch found => ?_, ?_, ?_, .nil, ?_⟩,
    fun _ => ⟨rfl, rfl, rfl, rfl, rfl⟩, nofun⟩
  · simp [initial] at found
  · simp [current]
  · simp [archived]
  · simp [records, current, archived]

theorem balanced_of_afterCalls {config : Config} {random : Random} {calls : List Call}
    (keeps : ∀ call ∈ calls, call.request ≠ .clear)
    (reached : (initial config random).afterCalls calls = some engine) : engine.Balanced :=
  afterCalls_advances Balanced.advances (balanced_initial config random) keeps reached

/-- The report leaves out records only that tell of no result. -/
theorem Filed.report (filed : engine.Filed) :
    engine.report.branches.Pairwise BranchSummary.Precedes ∧
      engine.report.resolved.length = engine.records.countP (·.resolved) ∧
      engine.report.bypassed.length = engine.records.countP (·.bypassed) := by
  have all : (engine.archive ++ engine.branches.inTraceOrder).map Branch.summary = engine.records :=
    List.map_append
  have counts : ∀ told : BranchSummary → Bool,
      (∀ branch ∈ engine.archive ++ engine.branches.inTraceOrder, told branch.summary →
        branch.dependsOnInput || branch.isResolved) →
      (engine.report.branches.filter told).length = engine.records.countP told := by
    intro told kept
    rw [← all, ← List.countP_eq_length_filter, Engine.report, List.countP_map, List.countP_map,
      List.countP_filter]
    refine List.countP_congr fun branch member => ?_
    rw [Bool.and_eq_true]
    exact ⟨And.left, fun tells => ⟨tells, kept branch member tells⟩⟩
  -- A flipped branch is reported in any case, one that was given up since it depends on the input.
  refine ⟨?_, counts _ fun branch _ resolved => ?_, counts _ fun branch member bypassed => ?_⟩
  · exact (all ▸ filed.pairwise).sublist (List.filter_sublist.map Branch.summary)
  · rw [show branch.isResolved = true from resolved, Bool.or_true]
  · have depends := filed.bypassed branch.summary (all ▸ List.mem_map_of_mem member) bypassed
    rw [branch.dependsOnInput_iff.mpr depends, Bool.true_or]

end Engine

namespace Session

variable {session last : Session} {stepLimit fuel : Nat}

theorem afterCall_of_react {action : Action} (done : session.react = (last, .ok action)) :
    ∃ call, call.request ≠ .clear ∧ session.engine.afterCall call = some last.engine := by
  obtain ⟨engine, machine⟩ := session
  unfold react at done
  split at done
  · refine ⟨⟨machine, .exit⟩, by simp, ?_⟩
    simp only [Engine.afterCall, Engine.answer]
    simp only [beforeExit] at done
    generalize engine.beforeExit machine.memory = reaction at done ⊢
    obtain ⟨after, memory, result⟩ := reaction
    simp only [Prod.mk.injEq] at done
    obtain ⟨rfl, rfl⟩ := done
    rfl
  · split at done
    · simp at done
    · rename_i instruction decoded
      split at done
      · simp at done
      · rename_i execution executes
        refine ⟨⟨machine, .instruction instruction execution⟩, by simp, ?_⟩
        simp only [Engine.afterCall, Engine.answer]
        simp only [beforeInstruction] at done
        generalize engine.beforeInstruction _ _ instruction execution = reaction at done ⊢
        obtain ⟨after, memory, result⟩ := reaction
        simp only [Prod.mk.injEq] at done
        obtain ⟨rfl, rfl⟩ := done
        rfl

theorem afterCalls_of_runTurns (done : session.runTurns stepLimit fuel = (last, .ok ())) :
    ∃ calls : List Call, (∀ call ∈ calls, call.request ≠ .clear) ∧
      session.engine.afterCalls calls = some last.engine := by
  induction fuel generalizing session with
  | zero => simp [runTurns] at done
  | succ fuel ih =>
      simp only [runTurns] at done
      cases turned : session.turn stepLimit with
      | running next =>
          rw [turned] at done
          obtain ⟨calls, keep, reached⟩ := ih done
          have reacts : ∃ after action, session.react = (after, .ok action) ∧
              next.engine = after.engine := by
            rcases (turn_running turned).2 with
              ⟨after, processor, reacts, rfl⟩ | ⟨after, machine, reacts, _, rfl⟩
            · exact ⟨after, _, reacts, rfl⟩
            · exact ⟨after, _, reacts, rfl⟩
          obtain ⟨after, action, reacts, same⟩ := reacts
          obtain ⟨call, keeps, answered⟩ := afterCall_of_react reacts
          exact ⟨call :: calls, List.forall_mem_cons.mpr ⟨keeps, keep⟩,
            Engine.afterCalls_cons.mpr ⟨_, answered, same ▸ reached⟩⟩
      | ended behind result =>
          rw [turned] at done
          simp only [Prod.mk.injEq] at done
          obtain ⟨rfl, rfl⟩ := done
          rcases turn_ended turned with ⟨_, _, failed⟩ | ⟨_, shape, _, fine⟩
          · simp at failed
          · have answers : ∃ action, session.react = (behind, .ok action) := by
              rcases fine rfl with stops | ⟨proceeds, _⟩
              · exact ⟨.stop, Prod.ext shape.symm stops⟩
              · exact ⟨.proceed, Prod.ext shape.symm proceeds⟩
            obtain ⟨action, reacts⟩ := answers
            obtain ⟨call, keeps, answered⟩ := afterCall_of_react reacts
            exact ⟨[call], by simpa using keeps,
              Engine.afterCalls_cons.mpr ⟨_, answered, rfl⟩⟩

theorem afterCalls_of_run {config : Config} {drawn : Random} {machine : Machine}
    (done : (start config machine drawn).run stepLimit = (last, .ok ())) :
    ∃ calls : List Call, (∀ call ∈ calls, call.request ≠ .clear) ∧
      (Engine.initial config (config.generator drawn)).afterCalls calls = some last.engine := by
  simp only [run, capture, start] at done
  cases received : (Engine.initial config (config.generator drawn)).receiveInput machine.memory
      machine.program.inputBuffer with
  | error fault => simp [received, Except.map] at done
  | ok engine =>
      simp only [received, Except.map] at done
      obtain ⟨calls, keep, reached⟩ := afterCalls_of_runTurns done
      refine ⟨⟨machine, .input machine.program.inputBuffer⟩ :: calls,
        List.forall_mem_cons.mpr ⟨by simp, keep⟩, Engine.afterCalls_cons.mpr ⟨engine, ?_, reached⟩⟩
      simp only [Engine.afterCall, Engine.answer, received]

theorem finished_of_run {config : Config} {drawn : Random} {program : Program} {machine : Machine}
    (loaded : Machine.load program = .ok machine)
    (done : (start config machine drawn).run stepLimit = (last, .ok ())) :
    last.engine.phase = .finished := by
  obtain ⟨first, launched, shape⟩ := run_of_load config drawn loaded stepLimit
  have ends := runTurns_ends launched (show first.afterTurns stepLimit 0 = some first from rfl)
    (Nat.zero_add _)
  rw [← shape, done] at ends
  cases ends with
  | finished _ finished => exact finished

/-- The report of a run that does not fail is complete and agrees with itself: every phase is summed up
once, the rollbacks are those of the phases and one in front of each phase but the first, the summaries add
up to all records, and the records are told in order. -/
theorem report_balanced {config : Config} {drawn : Random} {program : Program} {machine : Machine}
    (loaded : Machine.load program = .ok machine)
    (done : (start config machine drawn).run stepLimit = (last, .ok ())) :
    last.engine.report.phases.map (·.phase) = List.range (last.engine.phaseNumber + 1) ∧
    last.engine.report.rollbacks =
      (last.engine.report.phases.map (·.rollbacks)).sum + last.engine.phaseNumber ∧
    (last.engine.report.phases.map (·.branches)).sum =
      (last.engine.archive ++ last.engine.branches.inTraceOrder).length ∧
    (last.engine.report.phases.map (·.resolved)).sum = last.engine.report.resolved.length ∧
    (last.engine.report.phases.map (·.bypassed)).sum = last.engine.report.bypassed.length ∧
    last.engine.report.branches.Pairwise BranchSummary.Precedes := by
  obtain ⟨calls, keep, reached⟩ := afterCalls_of_run done
  obtain ⟨filed, _, settled⟩ := Engine.balanced_of_afterCalls keep reached
  obtain ⟨phases, rollbacks, branches, resolved, bypassed⟩ := settled (finished_of_run loaded done)
  obtain ⟨ordered, resolvedToo, bypassedToo⟩ := filed.report
  refine ⟨phases, rollbacks, ?_, resolved.trans resolvedToo.symm,
    bypassed.trans bypassedToo.symm, ordered⟩
  rw [← List.length_map Branch.summary, List.map_append]
  exact branches

theorem report_balanced_twoPhases :
    ∃ machine last, Machine.load twoTests = .ok machine ∧
      (start brief machine .scattered).run 100 = (last, .ok ()) ∧
      last.engine.report.phases.map (·.phase) = [0, 1] ∧ last.engine.report.rollbacks = 6 ∧
      (last.engine.report.phases.map (·.branches)).sum = 3 ∧
      last.engine.report.resolved.length = 2 ∧ last.engine.report.bypassed.length = 1 := by
  obtain ⟨machine, last, loaded, ran, number, _, inPhases, records, flipped, givenUp⟩ :=
    twoTests_finishes
  obtain ⟨phases, rollbacks, branches, resolved, bypassed, _⟩ := report_balanced loaded ran
  rw [number] at phases rollbacks
  rw [inPhases] at rollbacks
  exact ⟨machine, last, loaded, ran, phases, rollbacks, branches.trans records,
    resolved.symm.trans flipped, bypassed.symm.trans givenUp⟩

end Session

end BranchSteer
