import BranchSteer.Proofs.Seeds
import Mathlib.Data.Finset.Card

/-!
The outcomes that phases are started for. A search marks the records that it passes, so what it searches
for is told by the last of them. No outcome is made a target twice or after it was observed, and a search
that finds nothing leaves no flipped branch behind whose other outcome is neither.
-/

namespace BranchSteer

def Branch.outcome (branch : Branch) : Nat × Bool := (branch.address, branch.taken)

def Branch.otherOutcome (branch : Branch) : Nat × Bool := (branch.address, !branch.taken)

namespace Engine

def newlyExplored (marks : List Bool) (records : List Branch) : List Branch :=
  ((marks.zip records).filter fun pair => !pair.1 && pair.2.explored).map (·.2)

def target? (engine : Engine) (call : Call) : Option (Nat × Bool) :=
  (engine.decision? call).bind fun decision =>
    match decision.order with
    | .restart _ =>
      (newlyExplored (engine.searchOrder.map (·.explored)) decision.engine.searchOrder).getLast?.map
        Branch.otherOutcome
    | _ => none

def targets (engine : Engine) : List Call → List (Nat × Bool)
  | [] => []
  | call :: rest =>
    (engine.target? call).toList ++
      match engine.afterCall call with
      | some after => after.targets rest
      | none => []

/-- What the search for seeds relies on: the outcomes that count as seen are the targets and those of the
records, and the other outcome of a marked record is among them. -/
structure Explores (covered : Outcomes) (targets : List (Nat × Bool)) (records : List Branch) :
    Prop where
  distinct : targets.Nodup
  origin : ∀ target ∈ targets, target ∈ records.map Branch.otherOutcome
  flips : ∀ branch ∈ records, branch.isResolved → branch.flippingInput.isSome
  covers : ∀ (address : Nat) (taken : Bool), covered.contains address taken ↔
    (address, taken) ∈ targets ∨ (address, taken) ∈ records.map Branch.outcome
  marked : ∀ branch ∈ records, branch.explored → covered.contains branch.address (!branch.taken)

variable {covered : Outcomes} {targets : List (Nat × Bool)} {records marked : List Branch}

theorem Searched.outcomes {found : Option (Nat × Bool × List UInt8)}
    (searched : Searched covered records marked found) :
    marked.map Branch.outcome = records.map Branch.outcome ∧
      marked.map Branch.otherOutcome = records.map Branch.otherOutcome := by
  have told := searched.summaries
  constructor
  · have mapped := congrArg (List.map fun record : BranchSummary =>
      (record.address, record.taken)) told
    rwa [List.map_map, List.map_map] at mapped
  · have mapped := congrArg (List.map fun record : BranchSummary =>
      (record.address, !record.taken)) told
    rwa [List.map_map, List.map_map] at mapped

theorem mem_passed {before : List Branch} {branch : Branch}
    (member : branch ∈ before.map Branch.passed) :
    ∃ old ∈ before, branch = old ∨ old.isResolved ∧ branch = old.explore := by
  obtain ⟨old, listed, rfl⟩ := List.mem_map.mp member
  refine ⟨old, listed, ?_⟩
  unfold Branch.passed
  split
  · rename_i resolved
    exact Or.inr ⟨resolved, rfl⟩
  · exact Or.inl rfl

theorem Explores.covered_of_useless (explores : Explores covered targets records) {branch : Branch}
    (member : branch ∈ records) (useless : Useless covered branch) (resolved : branch.isResolved) :
    covered.contains branch.address (!branch.taken) := by
  rcases useless resolved with explored | known | unflipped
  · exact explores.marked branch member explored
  · exact known
  · have flips := explores.flips branch member resolved
    simp [unflipped] at flips

theorem Explores.nothing (explores : Explores covered targets records)
    (searched : Searched covered records marked none) :
    (∀ branch ∈ marked, branch.isResolved → branch.otherOutcome ∈ targets ∨
      branch.otherOutcome ∈ marked.map Branch.outcome) ∧
    ∀ target ∈ targets, target ∈ marked.map Branch.otherOutcome := by
  obtain ⟨outcomes, others⟩ := searched.outcomes
  rw [outcomes, others]
  refine ⟨fun branch member resolved => ?_, explores.origin⟩
  cases searched with
  | nothing useless =>
      obtain ⟨old, listed, same⟩ := mem_passed member
      have other : branch.otherOutcome = old.otherOutcome ∧ old.isResolved := by
        rcases same with rfl | ⟨resolvedToo, rfl⟩
        · exact ⟨rfl, resolved⟩
        · exact ⟨rfl, resolvedToo⟩
      rw [other.1]
      exact (explores.covers _ _).mp
        (explores.covered_of_useless listed (useless old listed) other.2)

theorem newlyExplored_append {first second : List Bool} {records others : List Branch}
    (lengths : first.length = records.length) :
    newlyExplored (first ++ second) (records ++ others) =
      newlyExplored first records ++ newlyExplored second others := by
  simp only [newlyExplored, List.zip_append lengths, List.filter_append, List.map_append]

theorem newlyExplored_same (records : List Branch) :
    newlyExplored (records.map (·.explored)) records = [] := by
  induction records with
  | nil => rfl
  | cons branch rest ih =>
      simp only [newlyExplored, List.map_cons, List.zip_cons_cons, List.map_eq_nil_iff] at ih ⊢
      rw [List.filter_cons, if_neg (by simp), ih]

theorem newlyExplored_found {before later : List Branch} {picked : Branch}
    (fresh : picked.explored = false) :
    (newlyExplored ((before ++ picked :: later).map (·.explored))
      (before.map Branch.passed ++ picked.explore :: later)).getLast? = some picked.explore := by
  have rest := newlyExplored_same later
  rw [List.map_append, List.map_cons, newlyExplored_append (by simp)]
  simp only [newlyExplored, List.map_eq_nil_iff] at rest ⊢
  simp [rest, fresh, Branch.explore]

theorem Explores.picks (explores : Explores covered targets records) {before later : List Branch}
    {picked : Branch} (shape : records = before ++ picked :: later)
    (useless : ∀ branch ∈ before, Useless covered branch)
    (unknown : picked.otherOutcome ∉ targets)
    (outcomes : marked.map Branch.outcome = records.map Branch.outcome)
    (others : marked.map Branch.otherOutcome = records.map Branch.otherOutcome)
    (marks : marked = before.map Branch.passed ++ picked.explore :: later) :
    Explores (covered.insert picked.address (!picked.taken)) (targets ++ [picked.otherOutcome])
      marked := by
  have listed : picked ∈ records := by simp [shape]
  -- A mark is new on a record that the search has passed or picked only.
  have origin : ∀ branch ∈ marked, ∃ old ∈ records, branch = old ∨ branch = old.explore ∧
      (old = picked ∨ old.isResolved ∧ Useless covered old) := by
    intro branch member
    rw [marks, List.mem_append, List.mem_cons] at member
    rcases member with passed | rfl | behind
    · obtain ⟨old, inFront, same⟩ := mem_passed passed
      refine ⟨old, by simp [shape, inFront], same.imp id fun ⟨resolved, same⟩ => ?_⟩
      exact ⟨same, Or.inr ⟨resolved, useless old inFront⟩⟩
    · exact ⟨picked, listed, Or.inr ⟨rfl, Or.inl rfl⟩⟩
    · exact ⟨branch, by simp [shape, behind], Or.inl rfl⟩
  constructor
  · rw [List.nodup_append]
    refine ⟨explores.distinct, by simp, fun target known other same equal => unknown ?_⟩
    rw [List.mem_singleton.mp same] at equal
    exact equal ▸ known
  · rw [others, List.forall_mem_append]
    refine ⟨explores.origin, fun target same => ?_⟩
    rw [List.mem_singleton.mp same]
    exact List.mem_map_of_mem listed
  · intro branch member resolved
    obtain ⟨old, known, rfl | ⟨rfl, _⟩⟩ := origin branch member
    · exact explores.flips _ known resolved
    · exact explores.flips old known resolved
  · intro address taken
    have same : picked.address = address ∧ (!picked.taken) = taken ↔
        (address, taken) = picked.otherOutcome := by
      simp only [Branch.otherOutcome, Prod.mk.injEq]
      exact and_congr eq_comm eq_comm
    rw [Outcomes.contains_insert, explores.covers, outcomes, List.mem_append, List.mem_singleton,
      same, ← or_assoc, or_comm (a := (address, taken) = _)]
  · intro branch member explored
    rw [Outcomes.contains_insert]
    obtain ⟨old, known, rfl | ⟨rfl, rfl | ⟨resolved, passed⟩⟩⟩ := origin branch member
    · exact Or.inr (explores.marked _ known explored)
    · exact Or.inl ⟨rfl, rfl⟩
    · have known := explores.covered_of_useless known passed resolved
      exact Or.inr known

theorem Explores.found (explores : Explores covered targets records) {address : Nat} {taken : Bool}
    {input : List UInt8}
    (searched : Searched covered records marked (some (address, taken, input))) :
    ∃ picked ∈ marked, picked.otherOutcome = (address, taken) ∧
      (newlyExplored (records.map (·.explored)) marked).getLast? = some picked ∧
      picked.isResolved ∧ picked.flippingInput = some input ∧ picked.otherOutcome ∉ targets ∧
      picked.otherOutcome ∉ marked.map Branch.outcome ∧
      Explores (covered.insert address taken) (targets ++ [picked.otherOutcome]) marked := by
  obtain ⟨outcomes, others⟩ := searched.outcomes
  cases searched with
  | found before picked later _ shape useless resolved fresh unseen flips =>
      have unknown : ¬ (picked.otherOutcome ∈ targets ∨
          picked.otherOutcome ∈ records.map Branch.outcome) := by
        intro known
        simp [(explores.covers picked.address (!picked.taken)).mpr known] at unseen
      obtain ⟨untargeted, unobserved⟩ := not_or.mp unknown
      refine ⟨picked.explore, by simp, rfl, ?_, resolved, flips, untargeted, ?_,
        explores.picks shape useless untargeted outcomes others rfl⟩
      · rw [shape]
        exact newlyExplored_found fresh
      · rw [outcomes]
        exact unobserved

/-- The records that count for the search: in a rollbacking phase also those of the phase itself. -/
def recorded (engine : Engine) : List Branch :=
  if engine.phase = .rollbacking then engine.searchOrder else engine.archive

def Unmarked (engine : Engine) : Prop :=
  ∀ branch ∈ engine.branches.inTraceOrder,
    branch.explored = false ∧ (branch.isResolved → branch.flippingInput.isSome)

structure Pursues (engine : Engine) (targets : List (Nat × Bool)) : Prop where
  keyed : Flow.Branches.Keyed engine.branches
  distinct : targets.Nodup
  enough : engine.phaseNumber ≤ targets.length
  origin : ∀ target ∈ targets, target ∈ engine.searchOrder.map Branch.otherOutcome
  explores : engine.phase ≠ .finished → Explores engine.seenOutcomes targets engine.recorded
  unmarked : engine.phase ≠ .finished → engine.Unmarked

variable {engine middle seeking taken after : Engine} {call : Call}

theorem archive_subset_recorded (engine : Engine) : engine.archive ⊆ engine.recorded := by
  unfold recorded searchOrder
  split
  · exact List.subset_append_right _ _
  · exact List.Subset.refl _

theorem Pursues.congr (pursues : engine.Pursues targets) (branches : after.branches = engine.branches)
    (archive : after.archive = engine.archive) (seen : after.seenOutcomes = engine.seenOutcomes)
    (number : after.phaseNumber = engine.phaseNumber)
    (rollbacking : after.phase = .rollbacking ↔ engine.phase = .rollbacking)
    (active : engine.phase = .finished → after.phase = .finished) : after.Pursues targets := by
  obtain ⟨keyed, distinct, enough, origin, explores, unmarked⟩ := pursues
  have order : after.searchOrder = engine.searchOrder := by
    rw [searchOrder, searchOrder, branches, archive]
  have records : after.recorded = engine.recorded := by
    simp only [recorded, rollbacking, order, archive]
  refine ⟨branches ▸ keyed, distinct, number ▸ enough, order ▸ origin, fun busy => ?_, fun busy => ?_⟩
  · rw [records, seen]
    exact explores (mt active busy)
  · rw [Unmarked, branches]
    exact unmarked (mt active busy)

theorem Revises.mem_outcomes (revises : engine.Revises middle) (outcome : Nat × Bool) :
    outcome ∈ middle.branches.inTraceOrder.map Branch.outcome ↔
      outcome ∈ engine.branches.inTraceOrder.map Branch.outcome :=
  revises.branches.mem_map (fun rejudged => by
    rw [Branch.outcome, rejudged.address, rejudged.taken, Branch.outcome]) outcome

theorem Revises.mem_otherOutcomes (revises : engine.Revises middle) (outcome : Nat × Bool) :
    outcome ∈ middle.searchOrder.map Branch.otherOutcome ↔
      outcome ∈ engine.searchOrder.map Branch.otherOutcome := by
  have current := @Flow.Branches.Retold.mem_map _ _ _ revises.branches _ Branch.otherOutcome
    (fun rejudged => by
      rw [Branch.otherOutcome, rejudged.address, rejudged.taken, Branch.otherOutcome]) outcome
  simp only [searchOrder, List.map_append, List.mem_append, revises.archive, current]

theorem Revises.unmarked (revises : engine.Revises middle) (unmarked : engine.Unmarked) :
    middle.Unmarked := by
  intro branch member
  obtain ⟨_, old, listed, rejudged⟩ := revises.branches.exists_of_mem member
  obtain ⟨fresh, flips⟩ := unmarked old listed
  refine ⟨rejudged.explored.trans fresh, fun resolved => ?_⟩
  rcases rejudged.flips resolved with ⟨earlier, same⟩ | known
  · rw [same]
    exact flips earlier
  · exact known

theorem unmarked_of_branches (none : engine.branches = ∅) : engine.Unmarked := by
  simp [Unmarked, none, inTraceOrder_empty]

theorem Unmarked.marks (unmarked : engine.Unmarked) :
    engine.branches.inTraceOrder.map (·.explored) =
      List.replicate engine.branches.inTraceOrder.length false := by
  rw [List.map_eq_replicate_iff]
  exact fun branch member => (unmarked branch member).1

theorem Revises.marks (revises : engine.Revises middle)
    (keyed : Flow.Branches.Keyed engine.branches) (unmarked : engine.Unmarked) :
    middle.searchOrder.map (·.explored) = engine.searchOrder.map (·.explored) := by
  have keyedToo := revises.branches.keyed keyed Branch.Rejudged.position
  rw [searchOrder, searchOrder, List.map_append, List.map_append, revises.archive,
    (revises.unmarked unmarked).marks, unmarked.marks, revises.branches.length_eq keyed keyedToo]

theorem Pursues.explores_revised (pursues : engine.Pursues targets)
    (active : engine.phase = .tainting ∨ engine.phase = .rollbacking)
    (revises : engine.Revises middle) :
    Explores middle.seenOutcomes targets middle.searchOrder := by
  have busy : engine.phase ≠ .finished := by rcases active with same | same <;> simp [same]
  have explores := pursues.explores busy
  have unmarked := revises.unmarked (pursues.unmarked busy)
  refine ⟨pursues.distinct, fun target member => ?_, ?_, fun address taken => ?_, ?_⟩
  · exact (revises.mem_otherOutcomes target).mpr (pursues.origin target member)
  · rw [searchOrder, List.forall_mem_append, revises.archive]
    exact ⟨fun branch member => (unmarked branch member).2, fun branch member =>
      explores.flips branch (archive_subset_recorded engine member)⟩
  · have there : (∃ branch ∈ engine.branches.inTraceOrder,
        branch.address = address ∧ branch.taken = taken) ↔
          (address, taken) ∈ engine.branches.inTraceOrder.map Branch.outcome := by
      simp only [List.mem_map, Branch.outcome, Prod.mk.injEq]
    rw [revises.seen, explores.covers, there, searchOrder, List.map_append, List.mem_append,
      revises.mem_outcomes, revises.archive]
    -- Only the judgement at the end of a tainting phase adds the outcomes of its records.
    rcases active with tainting | rollbacking
    · simp only [recorded, tainting, reduceCtorEq, if_false, true_and]
      rw [or_assoc, or_comm (a := _ ∈ engine.archive.map Branch.outcome)]
    · simp only [recorded, rollbacking, if_true, reduceCtorEq, false_and, or_false, searchOrder,
        List.map_append, List.mem_append]
  · rw [searchOrder, List.forall_mem_append, revises.archive]
    refine ⟨fun branch member explored => ?_, fun branch member explored => ?_⟩
    · simp [(unmarked branch member).1] at explored
    · exact (revises.seen _ _).mpr (Or.inl
        (explores.marked branch (archive_subset_recorded engine member) explored))

theorem Pursues.revises (pursues : engine.Pursues targets)
    (active : engine.phase = .tainting ∨ engine.phase = .rollbacking)
    (revises : engine.Revises middle) : middle.Pursues targets ∧
      middle.searchOrder.map (·.explored) = engine.searchOrder.map (·.explored) := by
  have unmarked := pursues.unmarked (by rcases active with same | same <;> simp [same])
  refine ⟨⟨revises.branches.keyed pursues.keyed Branch.Rejudged.position, pursues.distinct,
    revises.phaseNumber ▸ pursues.enough, fun target member => ?_, fun _ => ?_,
    fun _ => revises.unmarked unmarked⟩, revises.marks pursues.keyed unmarked⟩
  · exact (revises.mem_otherOutcomes target).mpr (pursues.origin target member)
  · rw [recorded, if_pos revises.phase]
    exact pursues.explores_revised active revises

theorem Pursues.search (pursues : middle.Pursues targets) (rollbacking : middle.phase = .rollbacking) :
    Flow.Branches.Keyed middle.addSummary.takeSeed.1.branches ∧
      Explores middle.seenOutcomes targets middle.searchOrder ∧ ∃ found,
        Searched middle.seenOutcomes middle.searchOrder middle.addSummary.takeSeed.1.searchOrder
          found ∧
        middle.addSummary.takeSeed.2 = found.map (·.2.2) ∧
        middle.addSummary.takeSeed.1.seenOutcomes = seenBehind middle.seenOutcomes found := by
  have explores := pursues.explores (by simp [rollbacking])
  rw [recorded, if_pos rollbacking] at explores
  obtain ⟨summaries, log, shape⟩ := addSummary_eq middle
  rw [shape]
  obtain ⟨marked, found, searched, same, seen⟩ := @takeSeed_searched
    { middle with summaries := summaries, log := log } pursues.keyed
  exact ⟨marked.keyed, explores, found, searched, same, seen⟩

theorem Pursues.picks (pursues : engine.Pursues targets)
    (active : engine.phase = .tainting ∨ engine.phase = .rollbacking)
    (revises : engine.Revises middle) {seed : List UInt8}
    (decides : engine.decision? call = some ⟨seeking, .restart seed⟩)
    (found : middle.addSummary.takeSeed = (seeking, some seed)) :
    ∃ picked ∈ seeking.searchOrder, engine.target? call = some picked.otherOutcome ∧
      picked.isResolved ∧ picked.flippingInput = some seed ∧ picked.otherOutcome ∉ targets ∧
      picked.otherOutcome ∉ seeking.searchOrder.map Branch.outcome ∧
      Flow.Branches.Keyed seeking.branches ∧
      Explores seeking.seenOutcomes (targets ++ [picked.otherOutcome]) seeking.searchOrder := by
  obtain ⟨judged, marks⟩ := pursues.revises active revises
  obtain ⟨keyed, explores, pick, searched, same, seen⟩ := judged.search revises.phase
  rw [found] at keyed searched same seen
  obtain ⟨address, taken, input, rfl, rfl⟩ : ∃ address taken input,
      pick = some (address, taken, input) ∧ seed = input := by
    rcases pick with _ | ⟨address, taken, input⟩
    · simp at same
    · exact ⟨address, taken, input, rfl, Option.some.inj same⟩
  obtain ⟨picked, member, other, last, resolved, flips, untargeted, unobserved, next⟩ :=
    explores.found searched
  refine ⟨picked, member, ?_, resolved, flips, untargeted, unobserved, keyed, ?_⟩
  · rw [marks] at last
    simp only [target?, decides, Option.bind_some, last, Option.map_some]
  · rw [seen]
    exact next

theorem Pursues.leaves (pursues : engine.Pursues targets)
    (active : engine.phase = .tainting ∨ engine.phase = .rollbacking)
    (revises : engine.Revises middle) (found : middle.addSummary.takeSeed = (seeking, none)) :
    (∀ branch ∈ seeking.searchOrder, branch.isResolved → branch.otherOutcome ∈ targets ∨
      branch.otherOutcome ∈ seeking.searchOrder.map Branch.outcome) ∧
    (∀ target ∈ targets, target ∈ seeking.searchOrder.map Branch.otherOutcome) ∧
    Flow.Branches.Keyed seeking.branches := by
  obtain ⟨judged, _⟩ := pursues.revises active revises
  obtain ⟨keyed, explores, pick, searched, same, _⟩ := judged.search revises.phase
  rw [found] at keyed searched same
  cases pick with
  | some pick => simp at same
  | none =>
      obtain ⟨known, origin⟩ := explores.nothing searched
      exact ⟨known, origin, keyed⟩

theorem target?_eq_none (goesOn : engine.seed? call = none) : engine.target? call = none := by
  unfold seed? at goesOn
  unfold target?
  cases decides : engine.decision? call with
  | none => rfl
  | some decision =>
      obtain ⟨middle, order⟩ := decision
      rw [decides] at goesOn
      cases order with
      | restart seed => simp at goesOn
      | _ => rfl

theorem Ends.pursues {exhausted : Bool} (ends : engine.Ends exhausted after)
    (keyed : Flow.Branches.Keyed engine.branches) (distinct : targets.Nodup)
    (enough : engine.phaseNumber ≤ targets.length)
    (origin : ∀ target ∈ targets, target ∈ engine.searchOrder.map Branch.otherOutcome) :
    after.Pursues targets := by
  obtain ⟨log, rfl⟩ := ends.shape
  exact ⟨keyed, distinct, enough, origin, fun busy => absurd rfl busy, fun busy => absurd rfl busy⟩

theorem Pursues.rollsBack (pursues : engine.Pursues targets) (rollsBack : engine.RollsBack after) :
    after.Pursues targets := by
  rw [rollsBack.frame]
  exact pursues.congr rfl rfl rfl rfl Iff.rfl id

theorem Explores.archived (explores : Explores seeking.seenOutcomes targets seeking.searchOrder) :
    Explores seeking.clearPhase.seenOutcomes targets seeking.clearPhase.archive := by
  obtain ⟨distinct, origin, flips, covers, marked⟩ := explores
  have told : ∀ {kind : Type} (told : Branch → kind),
      (∀ branch : Branch, told { branch with candidates := ∅ } = told branch) →
      ∀ value, value ∈ seeking.clearPhase.archive.map told ↔ value ∈ seeking.searchOrder.map told := by
    intro kind told same value
    simp only [clearPhase, searchOrder, List.map_append, List.mem_append, List.map_map,
      Function.comp_def, same]
    exact or_comm
  have each : ∀ {holds : Branch → Prop},
      (∀ branch : Branch, holds branch → holds { branch with candidates := ∅ }) →
      (∀ branch ∈ seeking.searchOrder, holds branch) →
      ∀ branch ∈ seeking.clearPhase.archive, holds branch := by
    intro holds kept all
    simp only [searchOrder, List.forall_mem_append] at all
    simp only [clearPhase, List.forall_mem_append, List.forall_mem_map]
    exact ⟨all.2, fun branch member => kept branch (all.1 branch member)⟩
  refine ⟨distinct, fun target member => ?_, each (fun _ flips => flips) flips,
    fun address taken => ?_, each (fun _ marked => marked) marked⟩
  · exact (told Branch.otherOutcome (fun _ => rfl) target).mpr (origin target member)
  · rw [told Branch.outcome fun _ => rfl]
    exact covers address taken

theorem Explores.restarted (explores : Explores seeking.seenOutcomes targets seeking.searchOrder)
    (enough : seeking.phaseNumber + 1 ≤ targets.length) (rollsBack : seeking.RollsBack taken)
    (seed : List UInt8) (text : String) :
    ((taken.restarted seed).inform text).Pursues targets := by
  rw [rollsBack.frame]
  have archived := explores.archived
  refine ⟨?_, explores.distinct, enough, fun target member => ?_, fun _ => archived, ?_⟩
  · intro position branch found
    simp [inform, note, Engine.restarted, clearPhase] at found
  · have known := archived.origin target member
    rw [searchOrder, List.map_append, List.mem_append]
    exact Or.inr known
  · exact fun _ => unmarked_of_branches rfl

theorem Pursues.record (pursues : engine.Pursues targets) (tainting : engine.phase = .tainting)
    {position : Nat} {branch : Branch} (created : branch.Created engine.phaseNumber position)
    (phase : after.phase = engine.phase) (archive : after.archive = engine.archive)
    (seen : after.seenOutcomes = engine.seenOutcomes)
    (number : after.phaseNumber = engine.phaseNumber)
    (branches : after.branches = engine.branches.insert position branch) :
    after.Pursues targets := by
  have busy : engine.phase ≠ .finished := by simp [tainting]
  have explores := pursues.explores busy
  -- The records of the phase itself do not count yet, and so the position may be recorded anew.
  have records : after.recorded = engine.archive ∧ engine.recorded = engine.archive := by
    simp [recorded, phase, tainting, archive]
  rw [records.2] at explores
  refine ⟨?_, pursues.distinct, number ▸ pursues.enough, fun target member => ?_, fun _ => ?_,
    fun _ => ?_⟩
  · rw [branches]
    exact pursues.keyed.insert created.position
  · rw [searchOrder, List.map_append, List.mem_append, archive]
    exact Or.inr (explores.origin target member)
  · rw [records.1, seen]
    exact explores
  · rw [Unmarked, branches]
    intro other member
    rcases Flow.Branches.mem_insert member with old | rfl
    · exact pursues.unmarked busy other old
    · exact ⟨created.explored, by simp [(Branch.isUndecided_iff _).mp created.undecided]⟩

theorem Pursues.advances (pursues : engine.Pursues targets) (advances : engine.Advances call after) :
    after.Pursues (targets ++ (engine.target? call).toList) := by
  have goesOn {behind : Engine} (none : engine.seed? call = none)
      (same : behind.Pursues targets) : behind.Pursues (targets ++ (engine.target? call).toList) := by
    rw [target?_eq_none none, Option.toList_none, List.append_nil]
    exact same
  cases advances with
  | rest idle none => exact goesOn none pursues
  | receive capturing none baseInput input log =>
      exact goesOn none (pursues.congr rfl rfl rfl rfl (by simp [capturing]) (by simp [capturing]))
  | record tainting none _ frame branches =>
      have phase : after.phase = engine.phase := (congrArg Engine.phase frame :)
      refine goesOn none ?_
      rcases branches with same | ⟨position, branch, created, inserted⟩
      · exact pursues.congr same (congrArg Engine.archive frame :)
          (congrArg Engine.seenOutcomes frame :) (congrArg Engine.phaseNumber frame :)
          (by rw [phase]) phase.trans
      · exact pursues.record tainting created phase (congrArg Engine.archive frame :)
          (congrArg Engine.seenOutcomes frame :) (congrArg Engine.phaseNumber frame :) inserted
  | follow rollbacking none position checkpoints =>
      exact goesOn none (pursues.congr rfl rfl rfl rfl Iff.rfl id)
  | resolve active none middle revises _ rollsBack =>
      exact goesOn none ((pursues.revises active revises).1.rollsBack rollsBack)
  | exhaust active none middle revises _ ends =>
      obtain ⟨keyed, distinct, enough, origin, _, _⟩ := (pursues.revises active revises).1
      exact goesOn none (ends.pursues keyed distinct enough origin)
  | finish active middle revises closed seeking seeks exhausted _ ends =>
      have enough : seeking.phaseNumber ≤ targets.length := by
        rw [seeks.phaseNumber, revises.phaseNumber]
        exact pursues.enough
      cases seeks with
      | limited none =>
          obtain ⟨keyed, distinct, _, origin, _, _⟩ := (pursues.revises active revises).1
          obtain ⟨summaries, log, shape⟩ := addSummary_eq middle
          rw [shape] at ends enough
          exact goesOn none (ends.pursues keyed distinct enough origin)
      | nothing none _ found =>
          obtain ⟨_, origin, keyed⟩ := pursues.leaves active revises found
          exact goesOn none (ends.pursues keyed pursues.distinct enough origin)
      | seed _ seed decides found =>
          obtain ⟨picked, _, target, _, _, _, _, keyed, explores⟩ :=
            pursues.picks active revises decides found
          rw [target]
          refine ends.pursues keyed explores.distinct ?_ explores.origin
          simp only [Option.toList_some, List.length_append, List.length_singleton]
          omega
  | restart active middle revises closed seeking seed decides found taken rollsBack text =>
      have seeks : engine.Seeks call middle seeking := .seed seeking seed decides found
      obtain ⟨picked, _, target, _, _, _, _, keyed, explores⟩ :=
        pursues.picks active revises decides found
      rw [target]
      refine explores.restarted ?_ rollsBack seed text
      rw [seeks.phaseNumber, revises.phaseNumber, List.length_append]
      exact Nat.succ_le_succ pursues.enough

theorem pursues_initial (config : Config) (random : Random) : (initial config random).Pursues [] := by
  refine ⟨fun position branch found => ?_, .nil, Nat.le_refl 0, nofun, fun _ => ?_, fun _ =>
    unmarked_of_branches rfl⟩
  · simp [initial] at found
  · refine ⟨.nil, nofun, nofun, fun address taken => ?_, nofun⟩
    cases taken <;> simp [initial, Outcomes.empty, Outcomes.contains, recorded]

theorem Pursues.afterCalls {calls : List Call} {earlier : List (Nat × Bool)}
    (situated : engine.Situated) (pursues : engine.Pursues earlier)
    (keeps : ∀ call ∈ calls, call.request ≠ .clear)
    (reached : engine.afterCalls calls = some after) :
    after.Situated ∧ after.Pursues (earlier ++ engine.targets calls) := by
  induction calls generalizing engine earlier with
  | nil =>
      rw [Engine.afterCalls, Option.some.injEq] at reached
      rw [Engine.targets, List.append_nil]
      exact reached ▸ ⟨situated, pursues⟩
  | cons call rest ih =>
      rw [List.forall_mem_cons] at keeps
      obtain ⟨middle, done, onward⟩ := afterCalls_cons.mp reached
      have advanced := pursues.advances (situated.advances keeps.1 done)
      have continues := ih (situated.afterCall done) advanced keeps.2 onward
      rw [List.append_assoc] at continues
      simp only [Engine.targets, done]
      exact continues

def Limited (engine : Engine) : Prop :=
  engine.config.phaseLimit ≠ 0 ∧ engine.config.phaseLimit ≤ engine.phaseNumber + 1

theorem Pursues.phaseNumber_le (pursues : engine.Pursues targets) :
    engine.phaseNumber ≤ (engine.searchOrder.map Branch.outcome).toFinset.card := by
  have inside : targets.toFinset ⊆
      (engine.searchOrder.map Branch.outcome).toFinset.image fun outcome => (outcome.1, !outcome.2) := by
    intro target member
    obtain ⟨branch, listed, rfl⟩ :=
      List.mem_map.mp (pursues.origin target (List.mem_toFinset.mp member))
    exact Finset.mem_image.mpr
      ⟨branch.outcome, List.mem_toFinset.mpr (List.mem_map_of_mem listed), rfl⟩
  calc engine.phaseNumber
      ≤ targets.length := pursues.enough
    _ = targets.toFinset.card := (List.toFinset_card_of_nodup pursues.distinct).symm
    _ ≤ _ := Finset.card_le_card inside
    _ ≤ _ := Finset.card_image_le

theorem Pursues.decides (pursues : engine.Pursues targets) {decision : Decision}
    (decided : engine.Decides decision) (decides : engine.decision? call = some decision) :
    (∀ seed, decision.order = .restart seed → ∃ picked ∈ decision.engine.searchOrder,
      engine.target? call = some picked.otherOutcome ∧ picked.isResolved ∧
      picked.flippingInput = some seed ∧ picked.otherOutcome ∉ targets ∧
      picked.otherOutcome ∉ decision.engine.searchOrder.map Branch.outcome ∧
      ∀ (address : Nat) (taken : Bool), decision.engine.seenOutcomes.contains address taken ↔
        (address, taken) ∈ targets ++ [picked.otherOutcome] ∨
          (address, taken) ∈ decision.engine.searchOrder.map Branch.outcome) ∧
    (decision.order = .stop → engine.phase = .tainting ∨ engine.phase = .rollbacking →
      ¬ engine.Limited → ∀ branch ∈ decision.engine.searchOrder, branch.isResolved →
        branch.otherOutcome ∈ targets ∨
        branch.otherOutcome ∈ decision.engine.searchOrder.map Branch.outcome) := by
  cases decided with
  | rest idle order harmless =>
      refine ⟨fun seed same => ?_, fun _ active => ?_⟩
      · rcases harmless with rfl | rfl <;> simp at same
      · rcases idle with same | same <;> simp [same] at active
  | record tainting instruction execution processor => exact ⟨nofun, nofun⟩
  | follow rollbacking position checkpoints writes => exact ⟨nofun, nofun⟩
  | rule active _ rules =>
      cases rules with
      | attempt middle revises resolution => exact ⟨nofun, nofun⟩
      | restore middle revises id => exact ⟨nofun, nofun⟩
      | fail middle fault => exact ⟨nofun, nofun⟩
      | conclude middle revises closed =>
          have concludes := concludePhase_concludes middle
          generalize middle.concludePhase = decision at decides concludes
          cases concludes with
          | limited limited text =>
              refine ⟨nofun, fun _ _ unlimited => absurd ?_ unlimited⟩
              rw [revises.frame] at limited
              exact limited
          | nothing seeking found text =>
              obtain ⟨known, _⟩ := pursues.leaves active revises found
              obtain ⟨summaries, log, shape⟩ := (seeking.inform text).finish_eq false
              refine ⟨nofun, fun _ _ _ => ?_⟩
              rw [shape]
              exact known
          | seed seeking seed found =>
              refine ⟨fun other same => ?_, nofun⟩
              obtain rfl := Order.restart.inj same
              obtain ⟨picked, member, target, resolved, flips, untargeted, unobserved, _, explores⟩ :=
                pursues.picks active revises decides found
              exact ⟨picked, member, target, resolved, flips, untargeted, unobserved,
                explores.covers⟩

/-- As long as no phase is cleared from outside, the targets of all calls are distinct, and every phase but
the first is started for an outcome of its own. A call that finds a seed takes a target that was neither
recorded nor a target before, and counts no other outcome as seen than what was recorded or a target. If a
call finds none, although a phase may follow, then the other outcome of each flipped branch was recorded or
a target before. -/
theorem targets_fresh {config : Config} {random : Random} {calls : List Call}
    (keeps : ∀ call ∈ calls, call.request ≠ .clear)
    (reached : (initial config random).afterCalls calls = some engine) :
    ((initial config random).targets calls).Nodup ∧
    engine.phaseNumber ≤ (engine.searchOrder.map Branch.outcome).toFinset.card ∧
    ∀ {call : Call} {decision : Decision}, engine.decision? call = some decision →
      (∀ seed, decision.order = .restart seed → ∃ picked ∈ decision.engine.searchOrder,
        engine.target? call = some picked.otherOutcome ∧ picked.isResolved ∧
        picked.flippingInput = some seed ∧
        picked.otherOutcome ∉ (initial config random).targets calls ∧
        picked.otherOutcome ∉ decision.engine.searchOrder.map Branch.outcome ∧
        ∀ (address : Nat) (taken : Bool), decision.engine.seenOutcomes.contains address taken ↔
          (address, taken) ∈ (initial config random).targets calls ++ [picked.otherOutcome] ∨
            (address, taken) ∈ decision.engine.searchOrder.map Branch.outcome) ∧
      (decision.order = .stop → engine.phase = .tainting ∨ engine.phase = .rollbacking →
        ¬ engine.Limited → ∀ branch ∈ decision.engine.searchOrder, branch.isResolved →
          branch.otherOutcome ∈ (initial config random).targets calls ∨
          branch.otherOutcome ∈ decision.engine.searchOrder.map Branch.outcome) := by
  obtain ⟨situated, pursues⟩ :=
    Pursues.afterCalls (situated_initial config random) (pursues_initial config random) keeps reached
  rw [List.nil_append] at pursues
  exact ⟨pursues.distinct, pursues.phaseNumber_le, fun decides =>
    pursues.decides (situated.decides_of_decision decides) decides⟩

theorem targets_fresh_flipped :
    ∃ engine decision seed,
      (initial .default (.ofSeed 7)).afterCalls ([.blank (.input ⟨16, 2⟩)] ++ comparison false 108 ++
        [.blank .exit] ++ (comparison false 200).take 2) = some engine ∧
      engine.decision? (.blank (.instruction (.plain 200 "nop") (.plain 200))) = some decision ∧
      decision.order = .restart seed ∧
      engine.target? (.blank (.instruction (.plain 200 "nop") (.plain 200))) = some (104, true) ∧
      (104, true) ∉ decision.engine.searchOrder.map Branch.outcome := by
  obtain ⟨engine, reached, facts⟩ := (Option.any_eq_true _ _).mp
    (show ((initial .default (.ofSeed 7)).afterCalls ([.blank (.input ⟨16, 2⟩)] ++ comparison false 108 ++
      [.blank .exit] ++ (comparison false 200).take 2)).any (fun engine =>
        (engine.seed? (.blank (.instruction (.plain 200 "nop") (.plain 200)))).isSome &&
          engine.target? (.blank (.instruction (.plain 200 "nop") (.plain 200))) ==
            some (104, true)) = true by decide +kernel)
  simp only [Bool.and_eq_true, beq_iff_eq, Option.isSome_iff_exists] at facts
  obtain ⟨⟨seed, found⟩, target⟩ := facts
  obtain ⟨decision, decides, order⟩ := Option.bind_eq_some_iff.mp found
  have restarts : decision.order = .restart seed := by
    cases same : decision.order <;> simp_all
  have keeps : ∀ call ∈ [.blank (.input ⟨16, 2⟩)] ++ comparison false 108 ++ [.blank .exit] ++
      (comparison false 200).take 2, call.request ≠ .clear := by
    simp [comparison, Call.blank]
  obtain ⟨picked, _, targetToo, _, _, _, unobserved, _⟩ :=
    ((targets_fresh keeps reached).2.2 decides).1 seed restarts
  rw [target, Option.some.injEq] at targetToo
  exact ⟨engine, decision, seed, reached, decides, restarts, target, targetToo ▸ unobserved⟩

end Engine

end BranchSteer
