import BranchSteer.Proofs.Advances

/-!
The search for the input of the next phase. It walks through the records of the current phase and then
through the archive, marks those that it passes as explored, and stops at the first that was flipped to an
outcome not seen yet.
-/

namespace BranchSteer

namespace Flow.Branches

theorem Keyed.nodup {branches : Branches} (keyed : Keyed branches) :
    branches.inTraceOrder.Nodup :=
  keyed.increasing.imp fun {first second} ordered same => by
    rw [same] at ordered
    exact Nat.lt_irrefl _ ordered

theorem keyed_branchesOf (records : List Branch) : Keyed (Engine.branchesOf records) :=
  fun _ _ found => (mem_of_branchesOf found).2

theorem mem_inTraceOrder_branchesOf {records : List Branch}
    (increasing : records.Pairwise fun first second => first.position < second.position)
    (branch : Branch) : branch ∈ (Engine.branchesOf records).inTraceOrder ↔ branch ∈ records := by
  have found := getElem?_branchesOf (increasing.imp Nat.ne_of_lt) branch.position branch
  constructor
  · intro member
    exact (found.mp ((keyed_branchesOf records).getElem?_of_mem member)).1
  · intro member
    exact mem_of_getElem? (found.mpr ⟨member, rfl⟩)

theorem inTraceOrder_branchesOf {records : List Branch}
    (increasing : records.Pairwise fun first second => first.position < second.position) :
    (Engine.branchesOf records).inTraceOrder = records := by
  have keyed := keyed_branchesOf records
  have nodup : records.Nodup := increasing.imp fun {first second} ordered same => by
    rw [same] at ordered
    exact Nat.lt_irrefl _ ordered
  refine List.Perm.eq_of_pairwise (fun first second _ _ less more => ?_) keyed.increasing increasing
    ((List.perm_ext_iff_of_nodup keyed.nodup nodup).mpr (mem_inTraceOrder_branchesOf increasing))
  exact absurd (Nat.lt_trans less more) (Nat.lt_irrefl _)

theorem mem_insert {branches : Branches} {position : Nat} {new branch : Branch}
    (member : branch ∈ inTraceOrder (branches.insert position new)) :
    branch ∈ branches.inTraceOrder ∨ branch = new := by
  obtain ⟨place, found⟩ := exists_of_mem member
  rw [Std.ExtTreeMap.getElem?_insert] at found
  split at found
  · exact Or.inr (Option.some.inj found).symm
  · exact Or.inl (mem_of_getElem? found)

theorem Keyed.insert {branches : Branches} (keyed : Keyed branches) {position : Nat} {new : Branch}
    (key : new.position = position) : Keyed (branches.insert position new) := by
  intro place branch found
  rw [Std.ExtTreeMap.getElem?_insert] at found
  split at found
  · rename_i same
    rw [← Option.some.inj found, key]
    exact Std.LawfulEqOrd.eq_of_compare same
  · exact keyed place branch found

theorem Retold.exists_of_mem {relation : Nat → Branch → Branch → Prop} {before after : Branches}
    (retold : Retold relation before after) {branch : Branch}
    (member : branch ∈ after.inTraceOrder) :
    ∃ position, ∃ old ∈ before.inTraceOrder, relation position old branch := by
  obtain ⟨position, found⟩ := Branches.exists_of_mem member
  obtain ⟨old, known, related⟩ := retold.origin found
  exact ⟨position, old, mem_of_getElem? known, related⟩

theorem Retold.mem_map {relation : Nat → Branch → Branch → Prop} {before after : Branches}
    (retold : Retold relation before after) {kind : Type} {told : Branch → kind}
    (same : ∀ {position old new}, relation position old new → told new = told old) (value : kind) :
    value ∈ after.inTraceOrder.map told ↔ value ∈ before.inTraceOrder.map told := by
  rw [List.mem_map, List.mem_map]
  constructor
  · rintro ⟨branch, member, rfl⟩
    obtain ⟨_, old, listed, related⟩ := retold.exists_of_mem member
    exact ⟨old, listed, (same related).symm⟩
  · rintro ⟨old, listed, rfl⟩
    obtain ⟨position, known⟩ := Branches.exists_of_mem listed
    obtain ⟨branch, found⟩ := Option.isSome_iff_exists.mp
      (Std.ExtTreeMap.mem_iff_isSome_getElem?.mp (retold.kept
        (Std.ExtTreeMap.mem_iff_isSome_getElem?.mpr (Option.isSome_of_eq_some known))))
    obtain ⟨other, knownToo, related⟩ := retold.origin found
    rw [known, Option.some.injEq] at knownToo
    exact ⟨branch, mem_of_getElem? found, knownToo ▸ same related⟩

theorem Retold.positions_eq {relation : Nat → Branch → Branch → Prop} {before after : Branches}
    (retold : Retold relation before after) (keyedBefore : Keyed before) (keyedAfter : Keyed after) :
    after.inTraceOrder.map (·.position) = before.inTraceOrder.map (·.position) := by
  have sorted : ∀ {branches : Branches}, Keyed branches →
      (branches.inTraceOrder.map (·.position)).Pairwise (· < ·) := by
    intro branches keyed
    rw [List.pairwise_map]
    exact keyed.increasing
  have nodup : ∀ {branches : Branches}, Keyed branches →
      (branches.inTraceOrder.map (·.position)).Nodup :=
    fun keyed => (sorted keyed).imp Nat.ne_of_lt
  have places : ∀ {branches : Branches} {position : Nat}, Keyed branches →
      (position ∈ branches.inTraceOrder.map (·.position) ↔ position ∈ branches) := by
    intro branches position keyed
    rw [List.mem_map, Std.ExtTreeMap.mem_iff_isSome_getElem?, Option.isSome_iff_exists]
    constructor
    · rintro ⟨branch, member, rfl⟩
      exact ⟨branch, keyed.getElem?_of_mem member⟩
    · rintro ⟨branch, found⟩
      exact ⟨branch, mem_of_getElem? found, keyed _ _ found⟩
  have same : (after.inTraceOrder.map (·.position)).Perm
      (before.inTraceOrder.map (·.position)) := by
    rw [List.perm_ext_iff_of_nodup (nodup keyedAfter) (nodup keyedBefore)]
    intro position
    rw [places keyedAfter, places keyedBefore]
    refine ⟨fun member => ?_, retold.kept⟩
    obtain ⟨branch, found⟩ := Option.isSome_iff_exists.mp
      (Std.ExtTreeMap.mem_iff_isSome_getElem?.mp member)
    obtain ⟨old, known, _⟩ := retold.origin found
    exact Std.ExtTreeMap.mem_iff_isSome_getElem?.mpr (Option.isSome_of_eq_some known)
  refine List.Perm.eq_of_pairwise (fun first second _ _ less more => ?_) (sorted keyedAfter)
    (sorted keyedBefore) same
  exact absurd (Nat.lt_trans less more) (Nat.lt_irrefl _)

theorem Retold.length_eq {relation : Nat → Branch → Branch → Prop} {before after : Branches}
    (retold : Retold relation before after) (keyedBefore : Keyed before) (keyedAfter : Keyed after) :
    after.inTraceOrder.length = before.inTraceOrder.length := by
  have same := congrArg List.length (retold.positions_eq keyedBefore keyedAfter)
  simpa using same

end Flow.Branches

namespace Branch

def passed (branch : Branch) : Branch := if branch.isResolved then branch.explore else branch

theorem summary_passed (branch : Branch) : branch.passed.summary = branch.summary := by
  unfold passed
  split <;> rfl

theorem explore_of_explored {branch : Branch} (explored : branch.explored) :
    branch.explore = branch := by
  simp [explore, ← explored]

end Branch

namespace Engine

/-- A record is of no use for the search: it was not flipped, or its other outcome is known. -/
def Useless (covered : Outcomes) (branch : Branch) : Prop :=
  branch.isResolved → branch.explored ∨ covered.contains branch.address (!branch.taken) ∨
    branch.flippingInput = none

inductive Searched (covered : Outcomes) (records : List Branch) :
    List Branch → Option (Nat × Bool × List UInt8) → Prop
  | nothing (useless : ∀ branch ∈ records, Useless covered branch) :
    Searched _ _ (records.map Branch.passed) none
  | found (before : List Branch) (picked : Branch) (later : List Branch) (input : List UInt8)
    (shape : records = before ++ picked :: later)
    (useless : ∀ branch ∈ before, Useless covered branch) (resolved : picked.isResolved)
    (fresh : picked.explored = false)
    (unseen : covered.contains picked.address (!picked.taken) = false)
    (flips : picked.flippingInput = some input) :
    Searched _ _ (before.map Branch.passed ++ picked.explore :: later)
      (some (picked.address, !picked.taken, input))

theorem Searched.cons {covered : Outcomes} {records marked : List Branch}
    {found : Option (Nat × Bool × List UInt8)} (searched : Searched covered records marked found)
    {branch : Branch} (useless : Useless covered branch) :
    Searched covered (branch :: records) (branch.passed :: marked) found := by
  cases searched with
  | nothing others => exact .nothing (List.forall_mem_cons.mpr ⟨useless, others⟩)
  | found before picked later input shape others resolved fresh unseen flips =>
      exact .found (branch :: before) picked later input (congrArg (branch :: ·) shape)
        (List.forall_mem_cons.mpr ⟨useless, others⟩) resolved fresh unseen flips

theorem pickSeed_searched (covered : Outcomes) (records : List Branch) :
    Searched covered records (pickSeed covered records).1 (pickSeed covered records).2 := by
  induction records with
  | nil => exact .nothing (by simp)
  | cons branch rest ih =>
      simp only [pickSeed]
      split
      · rename_i skipped
        simp only [Bool.or_eq_true, Bool.not_eq_true'] at skipped
        have same : branch.passed = branch := by
          unfold Branch.passed
          split
          · rename_i resolved
            exact Branch.explore_of_explored (skipped.resolve_left (by simp [resolved]))
          · rfl
        have step := ih.cons (show Useless covered branch from fun resolved =>
          Or.inl (skipped.resolve_left (by simp [resolved])))
        rw [same] at step
        exact step
      · rename_i candidate
        simp only [Bool.or_eq_true, Bool.not_eq_true', not_or, Bool.not_eq_false,
          Bool.not_eq_true] at candidate
        have same : branch.passed = branch.explore := by
          simp only [Branch.passed, candidate.1, if_true]
        split
        · rename_i seen
          have step := ih.cons (show Useless covered branch from fun _ => Or.inr (Or.inl seen))
          rw [same] at step
          exact step
        · rename_i unseen
          split
          · rename_i input flips
            exact .found [] branch rest input rfl (by simp) candidate.1 candidate.2
              (by simpa using unseen) flips
          · rename_i unflipped
            have step := ih.cons
              (show Useless covered branch from fun _ => Or.inr (Or.inr unflipped))
            rw [same] at step
            exact step

theorem Searched.summaries {covered : Outcomes} {records marked : List Branch}
    {found : Option (Nat × Bool × List UInt8)} (searched : Searched covered records marked found) :
    marked.map Branch.summary = records.map Branch.summary := by
  have passes : ∀ records : List Branch,
      (records.map Branch.passed).map Branch.summary = records.map Branch.summary := by
    intro records
    rw [List.map_map]
    exact List.map_congr_left fun branch _ => branch.summary_passed
  cases searched with
  | nothing useless => exact passes records
  | found before picked later input shape useless resolved fresh unseen flips =>
      rw [shape, List.map_append, List.map_append, passes]
      rfl

theorem Searched.behind {covered : Outcomes} {first second marked : List Branch}
    {found : Option (Nat × Bool × List UInt8)} (useless : ∀ branch ∈ first, Useless covered branch)
    (searched : Searched covered second marked found) :
    Searched covered (first ++ second) (first.map Branch.passed ++ marked) found := by
  induction first with
  | nil => exact searched
  | cons branch rest ih =>
      rw [List.forall_mem_cons] at useless
      exact (ih useless.2).cons useless.1

theorem Searched.inFront {covered : Outcomes} {first marked : List Branch}
    {found : Nat × Bool × List UInt8} (searched : Searched covered first marked (some found))
    (second : List Branch) :
    Searched covered (first ++ second) (marked ++ second) (some found) := by
  cases searched with
  | found before picked later input shape useless resolved fresh unseen flips =>
      have searchedToo := @Searched.found covered (first ++ second) before picked (later ++ second)
        input (by rw [shape, List.append_assoc, List.cons_append]) useless resolved fresh unseen flips
      rw [List.append_assoc, List.cons_append]
      exact searchedToo

def searchOrder (engine : Engine) : List Branch := engine.branches.inTraceOrder ++ engine.archive

structure Marked (engine after : Engine) : Prop where
  frame : after = { engine with
    branches := after.branches
    archive := after.archive
    seenOutcomes := after.seenOutcomes }
  keyed : Flow.Branches.Keyed after.branches
  current : after.branches.inTraceOrder.map Branch.summary =
    engine.branches.inTraceOrder.map Branch.summary
  archive : after.archive.map Branch.summary = engine.archive.map Branch.summary

/-- The outcomes that are taken for seen once a search has found a target. -/
def seenBehind (seen : Outcomes) : Option (Nat × Bool × List UInt8) → Outcomes
  | some (address, taken, _) => seen.insert address taken
  | none => seen

variable {engine : Engine}

theorem inTraceOrder_searched (keyed : Flow.Branches.Keyed engine.branches) {marked : List Branch}
    (same : marked.map Branch.summary = engine.branches.inTraceOrder.map Branch.summary) :
    (branchesOf marked).inTraceOrder = marked := by
  have positions : marked.map (·.position) = engine.branches.inTraceOrder.map (·.position) := by
    have mapped := congrArg (List.map BranchSummary.position) same
    rwa [List.map_map, List.map_map] at mapped
  apply Flow.Branches.inTraceOrder_branchesOf
  rw [← List.pairwise_map (f := fun branch : Branch => branch.position)
    (R := fun first second => first < second), positions, List.pairwise_map]
  exact keyed.increasing

theorem takeSeed_searched (keyed : Flow.Branches.Keyed engine.branches) :
    engine.Marked engine.takeSeed.1 ∧ ∃ found,
      Searched engine.seenOutcomes engine.searchOrder engine.takeSeed.1.searchOrder found ∧
      engine.takeSeed.2 = found.map (·.2.2) ∧
      engine.takeSeed.1.seenOutcomes = seenBehind engine.seenOutcomes found := by
  have current := pickSeed_searched engine.seenOutcomes engine.branches.inTraceOrder
  have archived := pickSeed_searched engine.seenOutcomes engine.archive
  have ordered := inTraceOrder_searched keyed current.summaries
  have keyedToo := Flow.Branches.keyed_branchesOf
    (pickSeed engine.seenOutcomes engine.branches.inTraceOrder).1
  unfold takeSeed searchOrder
  generalize pickSeed engine.seenOutcomes engine.branches.inTraceOrder = result at *
  obtain ⟨marked, _ | found⟩ := result
  · have same := current.summaries
    simp only at current ordered keyedToo same
    cases current with
    | nothing useless =>
        generalize pickSeed engine.seenOutcomes engine.archive = result at *
        obtain ⟨markedLater, _ | found⟩ := result
        · refine ⟨⟨rfl, keyedToo, ?_, archived.summaries⟩, none, ?_, rfl, rfl⟩
          · rw [ordered]
            exact same
          · rw [ordered]
            exact archived.behind useless
        · refine ⟨⟨rfl, keyedToo, ?_, archived.summaries⟩, some found, ?_, rfl, rfl⟩
          · rw [ordered]
            exact same
          · rw [ordered]
            exact archived.behind useless
  · refine ⟨⟨rfl, keyedToo, ?_, rfl⟩, some found, ?_, rfl, rfl⟩
    · rw [ordered]
      exact current.summaries
    · rw [ordered]
      exact current.inFront engine.archive

end Engine

end BranchSteer
