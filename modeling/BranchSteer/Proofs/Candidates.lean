import BranchSteer.Branch

/-!
The candidates of a branch: each byte that it depends on belongs to the first checkpoint that reads it,
so no byte of a candidate is read before its checkpoint.
-/

namespace BranchSteer

def FirstReader (checkpoints : List Checkpoint) (place address : Nat) : Prop :=
  (∃ checkpoint, checkpoints[place]? = some checkpoint ∧ address ∈ checkpoint.inputBytes) ∧
    ∀ {earlier : Nat} {checkpoint : Checkpoint}, earlier < place →
      checkpoints[earlier]? = some checkpoint → address ∉ checkpoint.inputBytes

theorem firstReader_zero (checkpoint : Checkpoint) (rest : List Checkpoint) (address : Nat) :
    FirstReader (checkpoint :: rest) 0 address ↔ address ∈ checkpoint.inputBytes := by
  simp [FirstReader]

theorem firstReader_succ (checkpoint : Checkpoint) (rest : List Checkpoint) (place address : Nat) :
    FirstReader (checkpoint :: rest) (place + 1) address ↔
      address ∉ checkpoint.inputBytes ∧ FirstReader rest place address := by
  constructor
  · rintro ⟨⟨reader, found, reads⟩, unread⟩
    exact ⟨unread (Nat.zero_lt_succ _) rfl, ⟨reader, found, reads⟩,
      fun below there => unread (Nat.succ_lt_succ below) there⟩
  · rintro ⟨first, ⟨reader, found, reads⟩, unread⟩
    refine ⟨⟨reader, found, reads⟩, fun {earlier other} below there => ?_⟩
    cases earlier with
    | zero =>
        simp only [List.getElem?_cons_zero, Option.some.injEq] at there
        exact there ▸ first
    | succ earlier => exact unread (by omega) there

theorem exists_firstReader {checkpoints : List Checkpoint} {address : Nat}
    (read : ∃ checkpoint ∈ checkpoints, address ∈ checkpoint.inputBytes) :
    ∃ place, FirstReader checkpoints place address := by
  induction checkpoints with
  | nil => simp at read
  | cons checkpoint rest ih =>
      by_cases first : address ∈ checkpoint.inputBytes
      · exact ⟨0, (firstReader_zero checkpoint rest address).mpr first⟩
      · have later : ∃ other ∈ rest, address ∈ other.inputBytes := by
          simpa [first] using read
        obtain ⟨place, reader⟩ := ih later
        exact ⟨place + 1, (firstReader_succ checkpoint rest place address).mpr ⟨first, reader⟩⟩

namespace Branch

/-- The bytes were handed out to their first readers, and those that nothing reads are left. -/
structure Distributed (uncovered : Std.ExtTreeSet Nat)
    (before : Std.ExtTreeMap Nat (Std.ExtTreeSet Nat)) (id : Nat) (checkpoints : List Checkpoint)
    (left : Std.ExtTreeSet Nat) (after : Std.ExtTreeMap Nat (Std.ExtTreeSet Nat)) : Prop where
  left : ∀ address, address ∈ left ↔
    address ∈ uncovered ∧ ∀ checkpoint ∈ checkpoints, address ∉ checkpoint.inputBytes
  older : ∀ index < id, after[index]? = before[index]?
  part : ∀ {place : Nat} {bytes : Std.ExtTreeSet Nat}, after[id + place]? = some bytes →
    bytes ≠ ∅ ∧ ∀ address, address ∈ bytes ↔
      address ∈ uncovered ∧ FirstReader checkpoints place address
  covers : ∀ {place address : Nat}, address ∈ uncovered →
    FirstReader checkpoints place address → id + place ∈ after

namespace Distributed

variable {uncovered left : Std.ExtTreeSet Nat} {before after : Std.ExtTreeMap Nat (Std.ExtTreeSet Nat)}
  {id : Nat} {checkpoint : Checkpoint} {rest : List Checkpoint}

theorem nil (fresh : ∀ index : Nat, id ≤ index → before[index]? = none) :
    Distributed uncovered before id [] uncovered before := by
  refine ⟨by simp, fun _ _ => rfl, fun {place bytes} found => ?_, by simp [FirstReader]⟩
  simp [fresh (id + place) (by omega)] at found

theorem nothing (fresh : ∀ index : Nat, id ≤ index → before[index]? = none)
    (checkpoints : List Checkpoint) : Distributed ∅ before id checkpoints ∅ before := by
  refine ⟨by simp, fun _ _ => rfl, fun {place bytes} found => ?_, by simp⟩
  simp [fresh (id + place) (by omega)] at found

theorem skip (distributed : Distributed uncovered before (id + 1) rest left after)
    (fresh : before[id]? = none)
    (unread : ∀ address ∈ uncovered, address ∉ checkpoint.inputBytes) :
    Distributed uncovered before id (checkpoint :: rest) left after := by
  obtain ⟨rests, older, part, covers⟩ := distributed
  refine ⟨fun address => ?_, fun index below => older index (by omega), ?_, ?_⟩
  · rw [rests, List.forall_mem_cons]
    exact ⟨fun ⟨member, others⟩ => ⟨member, unread address member, others⟩,
      fun ⟨member, _, others⟩ => ⟨member, others⟩⟩
  · intro place bytes found
    cases place with
    | zero => simp [older id (Nat.lt_succ_self id), fresh] at found
    | succ place =>
        rw [← Nat.succ_add_eq_add_succ] at found
        refine ⟨(part found).1, fun address => ?_⟩
        rw [(part found).2, firstReader_succ]
        exact ⟨fun ⟨member, reader⟩ => ⟨member, unread address member, reader⟩,
          fun ⟨member, _, reader⟩ => ⟨member, reader⟩⟩
  · intro place address member reader
    cases place with
    | zero =>
        exact absurd ((firstReader_zero checkpoint rest address).mp reader) (unread address member)
    | succ place =>
        rw [← Nat.succ_add_eq_add_succ]
        exact covers member ((firstReader_succ checkpoint rest place address).mp reader).2

theorem take (distributed : Distributed (uncovered \ checkpoint.inputBytes)
      (before.insert id (uncovered ∩ checkpoint.inputBytes)) (id + 1) rest left after)
    (nonempty : uncovered ∩ checkpoint.inputBytes ≠ ∅) :
    Distributed uncovered before id (checkpoint :: rest) left after := by
  obtain ⟨rests, older, part, covers⟩ := distributed
  have here := older id (Nat.lt_succ_self id)
  rw [Std.ExtTreeMap.getElem?_insert_self] at here
  refine ⟨fun address => ?_, fun index below => ?_, ?_, ?_⟩
  · rw [rests, List.forall_mem_cons, Std.ExtTreeSet.mem_diff_iff, and_assoc]
  · rw [older index (by omega), Std.ExtTreeMap.getElem?_insert, if_neg]
    rw [Nat.compare_eq_eq]
    omega
  · intro place bytes found
    cases place with
    | zero =>
        simp only [Nat.add_zero, here, Option.some.injEq] at found
        subst found
        refine ⟨nonempty, fun address => ?_⟩
        rw [Std.ExtTreeSet.mem_inter_iff, firstReader_zero]
    | succ place =>
        rw [← Nat.succ_add_eq_add_succ] at found
        refine ⟨(part found).1, fun address => ?_⟩
        rw [(part found).2, firstReader_succ, Std.ExtTreeSet.mem_diff_iff, and_assoc]
  · intro place address member reader
    cases place with
    | zero => exact Std.ExtTreeMap.mem_iff_isSome_getElem?.mpr (by simp [here])
    | succ place =>
        obtain ⟨unread, later⟩ := (firstReader_succ checkpoint rest place address).mp reader
        rw [← Nat.succ_add_eq_add_succ]
        exact covers (Std.ExtTreeSet.mem_diff_iff.mpr ⟨member, unread⟩) later

end Distributed

theorem distribute_distributed (uncovered : Std.ExtTreeSet Nat)
    (candidates : Std.ExtTreeMap Nat (Std.ExtTreeSet Nat)) (id : Nat)
    (checkpoints : List Checkpoint) (fresh : ∀ index : Nat, id ≤ index → candidates[index]? = none) :
    Distributed uncovered candidates id checkpoints
      (distribute uncovered candidates id checkpoints).1
      (distribute uncovered candidates id checkpoints).2 := by
  induction checkpoints generalizing uncovered candidates id with
  | nil => exact .nil fresh
  | cons checkpoint rest ih =>
      simp only [distribute]
      split
      · rename_i isEmpty
        rw [Std.ExtTreeSet.isEmpty_iff.mp isEmpty]
        exact .nothing fresh _
      · split
        · rename_i isEmpty
          refine (ih _ _ _ fun index above => fresh index (by omega)).skip (fresh id (Nat.le_refl id)) ?_
          intro address member reads
          have both := Std.ExtTreeSet.mem_inter_iff.mpr ⟨member, reads⟩
          rw [Std.ExtTreeSet.isEmpty_iff.mp isEmpty] at both
          simp at both
        · rename_i nonempty
          refine (ih _ _ _ fun index above => ?_).take (mt Std.ExtTreeSet.isEmpty_iff.mpr nonempty)
          rw [Std.ExtTreeMap.getElem?_insert, if_neg, fresh index (by omega)]
          rw [Nat.compare_eq_eq]
          omega

theorem latestCandidate?_eq_maxKey? (branch : Branch) :
    branch.latestCandidate? = branch.candidates.maxKey? :=
  Std.ExtTreeMap.maxKey?_eq_getLast?_keys.symm

/-- A branch all of whose bytes are read by some checkpoint has candidates, and they split its bytes by
their first readers. -/
theorem chooseCandidates_eq_ok (branch : Branch) {checkpoints : List Checkpoint}
    (dependent : branch.inputDependencies ≠ ∅)
    (covered : ∀ address ∈ branch.inputDependencies,
      ∃ checkpoint ∈ checkpoints, address ∈ checkpoint.inputBytes) :
    ∃ candidates checkpoint,
      branch.chooseCandidates checkpoints =
        ({ branch with candidates := candidates }, .ok checkpoint) ∧
      candidates.maxKey? = some checkpoint ∧
      ∀ {id : Nat} {bytes : Std.ExtTreeSet Nat}, candidates[id]? = some bytes →
        bytes ≠ ∅ ∧ ∀ address, address ∈ bytes ↔
          address ∈ branch.inputDependencies ∧ FirstReader checkpoints id address := by
  have spread := distribute_distributed branch.inputDependencies ∅ 0 checkpoints (by simp)
  generalize shape : distribute branch.inputDependencies ∅ 0 checkpoints = result at spread
  obtain ⟨left, candidates⟩ := result
  obtain ⟨rest, _, part, covers⟩ := spread
  simp only [Nat.zero_add] at rest part covers
  have nothing : left = ∅ := by
    apply Std.ExtTreeSet.ext_mem
    intro address
    rw [rest]
    constructor
    · rintro ⟨member, unread⟩
      obtain ⟨checkpoint, listed, reads⟩ := covered address member
      exact absurd reads (unread checkpoint listed)
    · simp
  obtain ⟨address, member⟩ : ∃ address, address ∈ branch.inputDependencies := by
    obtain ⟨address, found⟩ := Option.isSome_iff_exists.mp
      (Std.ExtTreeSet.isSome_min?_iff_ne_empty.mpr dependent)
    exact ⟨address, Std.ExtTreeSet.min?_mem found⟩
  obtain ⟨place, reader⟩ := exists_firstReader (covered address member)
  have inside := covers member reader
  obtain ⟨checkpoint, latest⟩ := Option.isSome_iff_exists.mp
    (Std.ExtTreeMap.isSome_maxKey?_of_mem inside)
  refine ⟨candidates, checkpoint, ?_, latest, part⟩
  simp only [chooseCandidates, shape, nothing, ← Std.ExtTreeSet.min?_eq_head?_toList,
    Std.ExtTreeSet.min?_empty, latestCandidate?_eq_maxKey?, latest]

end Branch

end BranchSteer
