import BranchSteer.Proofs.Chronicle
import BranchSteer.Proofs.Pools
import BranchSteer.Proofs.Schedules

/-!
The attempts at one branch. Its candidates are visited from the latest to the earliest. None is left
before all of its attempts are used up, and a single byte is given each of its other values once at most.
An attempt is judged by the memory that it leaves behind.
-/

namespace BranchSteer

namespace Attempt

/-- The attempt leaves the memory behind that the checkpoint recalls, under a perturbation. -/
structure Performs (attempt : Attempt) (input : InputBuffer) (perturbation : Perturbation) :
    Prop where
  size : attempt.behind.size = attempt.before.size
  byte : ∀ address, attempt.behind.byte address =
    (perturbation.value? input attempt.random address).getD
      (attempt.target.recalledByte attempt.before address)

/-- The attempt restores all bytes but those that it perturbs. Several of them get the next random
values, and a single one is given a value of its own. -/
structure Perturbs (attempt : Attempt) (bytes : Std.ExtTreeSet Nat) : Prop where
  size : attempt.behind.size = attempt.before.size
  restored : ∀ address, address ∉ bytes →
    attempt.behind.byte address = attempt.target.recalledByte attempt.before address
  drawn : bytes.size ≠ 1 →
    bytes.toList.map attempt.behind.byte = (attempt.random.bytes bytes.size).1

end Attempt

def Selection.valueOf (selection : Selection) (address : Nat) : Option UInt8 :=
  selection.baseInput[address - selection.input.address]?

def attemptsFrom (checkpoint : Nat) (made : List Attempt) : List Attempt :=
  made.filter fun attempt => attempt.checkpoint = checkpoint

def valuesTried (address : Nat) (made : List Attempt) : List UInt8 :=
  made.map fun attempt => attempt.behind.byte address

/-- The attempts that were made at a branch, which is given as it was selected. -/
structure Selection.Visits (selection : Selection) (limit : Nat) (selected : Branch)
    (made : List Attempt) : Prop where
  inOrder : made.Pairwise fun earlier later => later.checkpoint ≤ earlier.checkpoint
  perturbs : ∀ attempt ∈ made, attempt.checkpoint ∈ selected.candidates ∧
    attempt.Perturbs (selected.pool attempt.checkpoint)
  limited : ∀ id, (attemptsFrom id made).length ≤ selected.allowance limit id
  complete : ∀ attempt ∈ made, ∀ later ∈ selected.candidates, attempt.checkpoint < later →
    (attemptsFrom later made).length = selected.allowance limit later
  values : ∀ {id address : Nat}, selected.pool id = {address} →
    (valuesTried address (attemptsFrom id made)).Nodup ∧
      ∀ value ∈ valuesTried address (attemptsFrom id made),
        ∃ own, selection.valueOf address = some own ∧ value ≠ own

def Branch.Spent (limit : Nat) (selected : Branch) (made : List Attempt) : Prop :=
  ∀ id ∈ selected.candidates, (attemptsFrom id made).length = selected.allowance limit id

structure Selection.Tries (selection : Selection) (limit : Nat) (selected branch : Branch)
    (made : List Attempt) (resolution : Resolution) : Prop where
  visits : selection.Visits limit selected made
  candidates : ∀ id, branch.candidates[id]? =
    if id ≤ resolution.checkpoint then selected.candidates[id]? else none
  known : resolution.checkpoint ∈ selected.candidates
  perturbed : resolution.perturbed = selected.pool resolution.checkpoint
  released : ∀ address, address ∈ resolution.released ↔
    address ∈ selected.pool (resolution.checkpoint + 1)
  count : (attemptsFrom resolution.checkpoint made).length = resolution.attempts
  later : ∀ id ∈ selected.candidates, resolution.checkpoint < id →
    (attemptsFrom id made).length = selected.allowance limit id
  earlier : ∀ attempt ∈ made, resolution.checkpoint ≤ attempt.checkpoint
  scheduled : ∀ {address : Nat}, selected.pool resolution.checkpoint = {address} →
    ∃ own, selection.valueOf address = some own ∧
      (own :: (valuesTried address (attemptsFrom resolution.checkpoint made) ++
        resolution.schedule)).Nodup ∧
      resolution.attempts + resolution.schedule.length = 255
  unscheduled : (selected.pool resolution.checkpoint).size ≠ 1 → resolution.schedule = []

variable {selection : Selection} {limit : Nat} {selected branch : Branch} {made : List Attempt}
  {resolution : Resolution} {address : Nat} {engine : Engine}

theorem attemptsFrom_concat_self (made : List Attempt) (attempt : Attempt) :
    attemptsFrom attempt.checkpoint (made ++ [attempt]) =
      attemptsFrom attempt.checkpoint made ++ [attempt] := by
  simp [attemptsFrom]

theorem attemptsFrom_concat_of_ne {id : Nat} {attempt : Attempt} (elsewhere : id ≠ attempt.checkpoint)
    (made : List Attempt) : attemptsFrom id (made ++ [attempt]) = attemptsFrom id made := by
  simp [attemptsFrom, elsewhere.symm]

theorem valuesTried_concat (address : Nat) (made : List Attempt) (attempt : Attempt) :
    valuesTried address (made ++ [attempt]) =
      valuesTried address made ++ [attempt.behind.byte address] := by
  rw [valuesTried, List.map_append, List.map_singleton, valuesTried]

theorem attemptsFrom_eq_nil {id : Nat} (elsewhere : ∀ attempt ∈ made, attempt.checkpoint ≠ id) :
    attemptsFrom id made = [] := by
  simpa [attemptsFrom] using elsewhere

theorem visits_nil (selection : Selection) (limit : Nat) (selected : Branch) :
    selection.Visits limit selected [] :=
  ⟨.nil, by simp, by simp [attemptsFrom], by simp, by simp [attemptsFrom, valuesTried]⟩

/-- A further attempt, at a candidate behind which all attempts are used up. -/
theorem Selection.Visits.concat (visits : selection.Visits limit selected made) {attempt : Attempt}
    (known : attempt.checkpoint ∈ selected.candidates)
    (perturbs : attempt.Perturbs (selected.pool attempt.checkpoint))
    (upTo : ∀ earlier ∈ made, attempt.checkpoint ≤ earlier.checkpoint)
    (later : ∀ id ∈ selected.candidates, attempt.checkpoint < id →
      (attemptsFrom id made).length = selected.allowance limit id)
    (left : (attemptsFrom attempt.checkpoint made).length <
      selected.allowance limit attempt.checkpoint)
    (values : ∀ {address : Nat}, selected.pool attempt.checkpoint = {address} →
      (valuesTried address (attemptsFrom attempt.checkpoint (made ++ [attempt]))).Nodup ∧
        ∀ value ∈ valuesTried address (attemptsFrom attempt.checkpoint (made ++ [attempt])),
          ∃ own, selection.valueOf address = some own ∧ value ≠ own) :
    selection.Visits limit selected (made ++ [attempt]) := by
  refine ⟨?_, ?_, ?_, ?_, ?_⟩
  · refine List.pairwise_append.mpr ⟨visits.inOrder, List.pairwise_singleton _ _, ?_⟩
    intro earlier member last same
    exact List.mem_singleton.mp same ▸ upTo earlier member
  · intro other member
    rcases List.mem_append.mp member with old | last
    · exact visits.perturbs other old
    · exact List.mem_singleton.mp last ▸ ⟨known, perturbs⟩
  · intro id
    by_cases here : id = attempt.checkpoint
    · rw [here, attemptsFrom_concat_self, List.length_append, List.length_singleton]
      exact left
    · rw [attemptsFrom_concat_of_ne here]
      exact visits.limited id
  · intro other member id candidate above
    rw [attemptsFrom_concat_of_ne]
    · rcases List.mem_append.mp member with old | last
      · exact visits.complete other old id candidate above
      · exact later id candidate (List.mem_singleton.mp last ▸ above)
    · rcases List.mem_append.mp member with old | last
      · exact Nat.ne_of_gt (Nat.lt_of_le_of_lt (upTo other old) above)
      · exact Nat.ne_of_gt (List.mem_singleton.mp last ▸ above)
  · intro id address single
    by_cases here : id = attempt.checkpoint
    · subst here
      exact values single
    · rw [attemptsFrom_concat_of_ne here]
      exact visits.values single

namespace Attempt.Performs

variable {attempt : Attempt} {input : InputBuffer}

theorem perturbs (performs : attempt.Performs input (Engine.nextPerturbation resolution))
    (unscheduled : resolution.perturbed.size ≠ 1 → resolution.schedule = []) :
    attempt.Perturbs resolution.perturbed := by
  refine ⟨performs.size, fun address unperturbed => ?_, fun several => ?_⟩
  · have kept := mt (Engine.isSome_value?_nextPerturbation input attempt.random resolution
      address).mp unperturbed
    rw [performs.byte, Option.not_isSome_iff_eq_none.mp kept, Option.getD_none]
  · have random : Engine.nextPerturbation resolution = .randomize resolution.perturbed := by
      rw [Engine.nextPerturbation, unscheduled several]
    have values := Perturbation.map_value?_randomize input attempt.random resolution.perturbed
    refine List.map_injective_iff.mpr (fun _ _ => Option.some.inj) ?_
    rw [← values, List.map_map]
    refine List.map_congr_left fun address member => ?_
    obtain ⟨value, drawn⟩ := Option.isSome_iff_exists.mp
      ((Perturbation.isSome_value?_randomize input attempt.random resolution.perturbed
        address).mpr (Std.ExtTreeSet.mem_toList.mp member))
    rw [Function.comp_apply, performs.byte, random, drawn, Option.getD_some]

theorem byte_eq (performs : attempt.Performs input (Engine.nextPerturbation resolution))
    {value : UInt8} {rest : List UInt8} (perturbed : resolution.perturbed = {address})
    (next : resolution.schedule = value :: rest) : attempt.behind.byte address = value := by
  rw [performs.byte, Engine.value?_nextPerturbation perturbed next, Option.getD_some]

end Attempt.Performs

theorem Branch.allowance_single (single : selected.pool resolution.checkpoint = {address}) :
    selected.allowance limit resolution.checkpoint = min (max 1 limit) 255 := by
  rw [allowance, single, size_singleton, if_pos rfl]

theorem Branch.exists_single {id : Nat} (one : (selected.pool id).size = 1) :
    ∃ address, selected.pool id = {address} := by
  obtain ⟨address, only⟩ := List.length_eq_one_iff.mp (Std.ExtTreeSet.length_toList.trans one)
  refine ⟨address, Std.ExtTreeSet.ext_mem fun other => ?_⟩
  rw [← Std.ExtTreeSet.mem_toList, only, List.mem_singleton, mem_singleton]

namespace Selection.Tries

theorem attempts_le (tries : selection.Tries limit selected branch made resolution) :
    resolution.attempts ≤ selected.allowance limit resolution.checkpoint :=
  tries.count ▸ tries.visits.limited resolution.checkpoint

theorem isExhausted_iff (tries : selection.Tries limit selected branch made resolution)
    (begun : 1 ≤ resolution.attempts) (limited : engine.config.attemptLimit = limit) :
    engine.isExhausted resolution ↔
      resolution.attempts = selected.allowance limit resolution.checkpoint := by
  have bound := tries.attempts_le
  simp only [Engine.isExhausted, limited, tries.perturbed, Bool.or_eq_true, Bool.and_eq_true,
    decide_eq_true_eq, List.isEmpty_iff]
  by_cases one : (selected.pool resolution.checkpoint).size = 1
  · obtain ⟨address, single⟩ := Branch.exists_single one
    obtain ⟨own, _, _, total⟩ := tries.scheduled single
    rw [Branch.allowance_single single] at bound ⊢
    rw [← List.length_eq_zero_iff]
    simp only [one, true_and]
    omega
  · rw [Branch.allowance, if_neg one] at bound ⊢
    simp only [one, false_and, or_false]
    omega

theorem exists_next (tries : selection.Tries limit selected branch made resolution)
    (left : resolution.attempts < selected.allowance limit resolution.checkpoint)
    (single : selected.pool resolution.checkpoint = {address}) :
    ∃ value rest, resolution.schedule = value :: rest := by
  obtain ⟨own, _, _, total⟩ := tries.scheduled single
  rw [Branch.allowance_single single] at left
  exact List.exists_cons_of_length_pos (by omega)

/-- The value of a further attempt at a single byte moves from the schedule to those that were tried. -/
theorem scheduled_concat (tries : selection.Tries limit selected branch made resolution)
    (left : resolution.attempts < selected.allowance limit resolution.checkpoint)
    {attempt : Attempt} (here : attempt.checkpoint = resolution.checkpoint) {buffer : InputBuffer}
    (performs : attempt.Performs buffer (Engine.nextPerturbation resolution))
    (single : selected.pool resolution.checkpoint = {address}) :
    ∃ own, selection.valueOf address = some own ∧
      (own :: (valuesTried address (attemptsFrom resolution.checkpoint (made ++ [attempt])) ++
        resolution.schedule.tail)).Nodup ∧
      resolution.attempts + 1 + resolution.schedule.tail.length = 255 := by
  obtain ⟨value, rest, next⟩ := tries.exists_next left single
  obtain ⟨own, held, distinct, total⟩ := tries.scheduled single
  have tried : valuesTried address (attemptsFrom resolution.checkpoint (made ++ [attempt])) =
      valuesTried address (attemptsFrom resolution.checkpoint made) ++ [value] := by
    rw [← here, attemptsFrom_concat_self, valuesTried_concat,
      performs.byte_eq (tries.perturbed.trans single) next]
  rw [next] at distinct
  rw [next, List.length_cons] at total
  refine ⟨own, held, ?_, ?_⟩
  · rwa [tried, next, List.tail_cons, List.append_assoc, List.singleton_append]
  · rw [next, List.tail_cons]
    omega

theorem concat (tries : selection.Tries limit selected branch made resolution)
    (left : resolution.attempts < selected.allowance limit resolution.checkpoint)
    {attempt : Attempt} (here : attempt.checkpoint = resolution.checkpoint) {buffer : InputBuffer}
    (performs : attempt.Performs buffer (Engine.nextPerturbation resolution)) (input : List UInt8) :
    selection.Tries limit selected branch (made ++ [attempt])
      { Engine.spent resolution with attemptedInput := input } := by
  have perturbs : attempt.Perturbs (selected.pool resolution.checkpoint) :=
    tries.perturbed ▸ performs.perturbs fun several =>
      tries.unscheduled (tries.perturbed ▸ several)
  have visits : selection.Visits limit selected (made ++ [attempt]) := by
    refine tries.visits.concat ?_ ?_ ?_ ?_ ?_ ?_ <;> rw [here]
    · exact tries.known
    · exact perturbs
    · exact tries.earlier
    · exact tries.later
    · exact tries.count ▸ left
    · intro address single
      obtain ⟨own, held, distinct, _⟩ := tries.scheduled_concat left here performs single
      obtain ⟨fresh, distinct⟩ := List.nodup_cons.mp distinct
      refine ⟨(List.nodup_append.mp distinct).1, fun value member => ⟨own, held, ?_⟩⟩
      rintro rfl
      exact fresh (List.mem_append_left _ member)
  refine ⟨visits, tries.candidates, tries.known, tries.perturbed, tries.released, ?_, ?_, ?_,
    tries.scheduled_concat left here performs, fun several => ?_⟩
  · show (attemptsFrom resolution.checkpoint _).length = resolution.attempts + 1
    rw [← here, attemptsFrom_concat_self, List.length_append, List.length_singleton, here, tries.count]
  · intro id known above
    rw [attemptsFrom_concat_of_ne (by rw [here]; exact Nat.ne_of_gt above)]
    exact tries.later id known above
  · intro other member
    rcases List.mem_append.mp member with old | last
    · exact tries.earlier other old
    · exact Nat.le_of_eq (List.mem_singleton.mp last ▸ here.symm)
  · show resolution.schedule.tail = []
    rw [tries.unscheduled several, List.tail_nil]

end Selection.Tries

theorem tries_prepare (input : selection.input = engine.input)
    (baseInput : selection.baseInput = engine.baseInput)
    (length : engine.baseInput.length = engine.input.length)
    (inside : ∀ address ∈ (engine.prepare branch resolution).2.perturbed,
      engine.input.contains address)
    (visits : selection.Visits limit selected made)
    (candidates : ∀ id, branch.candidates[id]? =
      if id ≤ resolution.checkpoint then selected.candidates[id]? else none)
    (known : resolution.checkpoint ∈ selected.candidates)
    (released : ∀ address, address ∈ resolution.released ↔
      address ∈ selected.pool (resolution.checkpoint + 1))
    (later : ∀ id ∈ selected.candidates, resolution.checkpoint < id →
      (attemptsFrom id made).length = selected.allowance limit id)
    (before : ∀ attempt ∈ made, resolution.checkpoint < attempt.checkpoint) :
    selection.Tries limit selected branch made (engine.prepare branch resolution).2 := by
  have nothing : attemptsFrom resolution.checkpoint made = [] :=
    attemptsFrom_eq_nil fun attempt member => Nat.ne_of_gt (before attempt member)
  have perturbed : (engine.prepare branch resolution).2.perturbed =
      selected.pool resolution.checkpoint := by
    apply Std.ExtTreeSet.ext_mem
    intro address
    have own : branch.candidateBytes resolution.checkpoint =
        selected.candidateBytes resolution.checkpoint := by
      rw [Branch.candidateBytes, Branch.candidateBytes, candidates, if_pos (Nat.le_refl _)]
    simp only [Engine.prepare, Std.ExtTreeSet.mem_insertMany_list, List.contains_iff_mem,
      Std.ExtTreeSet.mem_toList, own, released]
    exact Branch.mem_pool_succ.symm
  have schedule : (engine.prepare branch resolution).2.schedule =
      (engine.makeSchedule (selected.pool resolution.checkpoint)).1 :=
    congrArg (fun bytes => (engine.makeSchedule bytes).1) perturbed
  refine ⟨visits, candidates, known, perturbed, released, congrArg List.length nothing,
    later, fun attempt member => Nat.le_of_lt (before attempt member), fun {address} single => ?_,
    fun several => schedule.trans (Engine.makeSchedule_of_size_ne several)⟩
  replace single : selected.pool resolution.checkpoint = {address} := single
  rw [single] at schedule perturbed
  have contained : engine.input.contains address :=
    inside address (perturbed ▸ (mem_singleton address address).mpr rfl)
  have bounds := (InputBuffer.contains_iff _ _).mp contained
  have held : engine.baseInput[address - engine.input.address]? =
      some engine.baseInput[address - engine.input.address] := List.getElem?_eq_getElem (by omega)
  have untried : valuesTried address (attemptsFrom (engine.prepare branch resolution).2.checkpoint
      made) = [] := congrArg (valuesTried address) nothing
  refine ⟨_, by rw [Selection.valueOf, input, baseInput]; exact held, ?_, ?_⟩
  · rw [untried, List.nil_append, schedule, List.nodup_cons]
    refine ⟨fun member => ?_, ?_⟩
    · exact (Engine.mem_makeSchedule contained).mp member held
    · exact (Engine.makeSchedule_perm contained held).nodup_iff.mpr (Engine.nodup_values.erase _)
  · show 0 + (engine.prepare branch resolution).2.schedule.length = 255
    rw [schedule, Engine.length_makeSchedule contained length, Nat.zero_add]

namespace Selection.Tries

theorem mem_candidates (tries : selection.Tries limit selected branch made resolution) {id : Nat} :
    id ∈ branch.candidates ↔ id ≤ resolution.checkpoint ∧ id ∈ selected.candidates := by
  simp only [Std.ExtTreeMap.mem_iff_isSome_getElem?, tries.candidates]
  by_cases upTo : id ≤ resolution.checkpoint <;> simp [upTo]

theorem fresh (input : selection.input = engine.input)
    (baseInput : selection.baseInput = engine.baseInput)
    (length : engine.baseInput.length = engine.input.length) {position checkpoint : Nat}
    (inside : ∀ address ∈ (engine.prepare branch
      (Engine.freshResolution position checkpoint engine.baseInput)).2.perturbed,
        engine.input.contains address)
    (unchanged : branch.candidates = selected.candidates)
    (latest : branch.latestCandidate? = some checkpoint) :
    selection.Tries limit selected branch []
      (engine.prepare branch
        (Engine.freshResolution position checkpoint engine.baseInput)).2 := by
  obtain ⟨known, last⟩ := Branch.latestCandidate?_eq_some_iff.mp latest
  rw [unchanged] at known last
  refine tries_prepare input baseInput length inside (visits_nil selection limit selected)
    (fun id => ?_) known (fun address => ?_) (fun id member above => ?_) (by simp)
  · rw [unchanged]
    split
    · rfl
    · rename_i above
      exact Std.ExtTreeMap.getElem?_eq_none fun member => above (last id member)
  · simp only [Engine.freshResolution, Std.ExtTreeSet.not_mem_empty, false_iff, Branch.mem_pool]
    rintro ⟨later, bytes, above, found, _⟩
    have bound := last later (Std.ExtTreeMap.mem_iff_isSome_getElem?.mpr (by simp [found]))
    omega
  · exact absurd (last id member) (Nat.not_le_of_lt above)

theorem le_of_next (tries : selection.Tries limit selected branch made resolution) {next : Nat}
    (latest : (branch.withoutCandidate resolution.checkpoint).latestCandidate? = some next) :
    next < resolution.checkpoint ∧ next ∈ selected.candidates ∧
      ∀ id ∈ selected.candidates, next < id → resolution.checkpoint ≤ id := by
  obtain ⟨known, last⟩ := Branch.latestCandidate?_eq_some_iff.mp latest
  obtain ⟨other, left⟩ := Branch.mem_withoutCandidate.mp known
  obtain ⟨upTo, selectedToo⟩ := tries.mem_candidates.mp left
  refine ⟨by omega, selectedToo, fun id member above => ?_⟩
  refine Nat.le_of_not_lt fun below => ?_
  have bound := last id (Branch.mem_withoutCandidate.mpr
    ⟨Nat.ne_of_lt below, tries.mem_candidates.mpr ⟨Nat.le_of_lt below, member⟩⟩)
  omega

theorem moved (input : selection.input = engine.input)
    (baseInput : selection.baseInput = engine.baseInput)
    (length : engine.baseInput.length = engine.input.length) {next : Nat}
    (inside : ∀ address ∈ (engine.prepare (branch.withoutCandidate resolution.checkpoint)
      (Engine.movedResolution branch resolution next)).2.perturbed, engine.input.contains address)
    (tries : selection.Tries limit selected branch made resolution)
    (spent : resolution.attempts = selected.allowance limit resolution.checkpoint)
    (latest : (branch.withoutCandidate resolution.checkpoint).latestCandidate? = some next) :
    selection.Tries limit selected (branch.withoutCandidate resolution.checkpoint) made
      (engine.prepare (branch.withoutCandidate resolution.checkpoint)
        (Engine.movedResolution branch resolution next)).2 := by
  obtain ⟨below, known, gap⟩ := tries.le_of_next latest
  refine tries_prepare input baseInput length inside tries.visits (fun id => ?_) known
    (fun address => ?_) (fun id member above => ?_)
    (fun attempt member => Nat.lt_of_lt_of_le below (tries.earlier attempt member))
  · change _ = if id ≤ next then selected.candidates[id]? else none
    rw [Branch.getElem?_withoutCandidate, tries.candidates]
    by_cases upTo : id ≤ next
    · rw [if_neg (by omega), if_pos (by omega), if_pos upTo]
    · rw [if_neg upTo]
      split
      · rfl
      · split
        · exact Std.ExtTreeMap.getElem?_eq_none fun member => by
            have bound := gap id member (by omega)
            omega
        · rfl
  · have same : selected.pool (next + 1) = selected.pool resolution.checkpoint :=
      Branch.pool_eq_of_gap below fun between member above => gap between member above
    have own : branch.candidateBytes resolution.checkpoint =
        selected.candidateBytes resolution.checkpoint := by
      rw [Branch.candidateBytes, Branch.candidateBytes, tries.candidates, if_pos (Nat.le_refl _)]
    simp only [Engine.movedResolution, Std.ExtTreeSet.mem_insertMany_list, List.contains_iff_mem,
      Std.ExtTreeSet.mem_toList, same, own, tries.released]
    exact or_comm.trans Branch.mem_pool_succ.symm
  · rcases Nat.lt_or_eq_of_le (gap id member above) with later | rfl
    · exact tries.later id member later
    · rw [tries.count, spent]

theorem spent (tries : selection.Tries limit selected branch made resolution)
    (spent : resolution.attempts = selected.allowance limit resolution.checkpoint)
    (last : (branch.withoutCandidate resolution.checkpoint).latestCandidate? = none) :
    selected.Spent limit made := by
  intro id member
  rcases Nat.lt_trichotomy id resolution.checkpoint with below | rfl | above
  · have left : id ∈ (branch.withoutCandidate resolution.checkpoint).candidates :=
      Branch.mem_withoutCandidate.mpr
        ⟨Nat.ne_of_lt below, tries.mem_candidates.mpr ⟨Nat.le_of_lt below, member⟩⟩
    rw [Branch.latestCandidate?_eq_none_iff.mp last] at left
    simp at left
  · rw [tries.count, spent]
  · exact tries.later id member above

end Selection.Tries

end BranchSteer
