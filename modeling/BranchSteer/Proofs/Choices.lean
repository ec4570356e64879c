import BranchSteer.Proofs.Pools

/-!
The choice of candidates as a whole: when it succeeds, which bytes it hands to which checkpoint, and which
byte it complains about otherwise. Candidates that are given up one after the other are visited from the
latest to the earliest.
-/

namespace BranchSteer

def Unread (checkpoints : List Checkpoint) (address : Nat) : Prop :=
  ∀ checkpoint ∈ checkpoints, address ∉ checkpoint.inputBytes

theorem not_unread_iff {checkpoints : List Checkpoint} {address : Nat} :
    ¬ Unread checkpoints address ↔ ∃ checkpoint ∈ checkpoints, address ∈ checkpoint.inputBytes := by
  simp [Unread]

namespace Branch

variable {branch selected : Branch} {checkpoints : List Checkpoint} {latest : Nat}

theorem size_withoutCandidate_lt (known : latest ∈ branch.candidates) :
    (branch.withoutCandidate latest).candidates.size < branch.candidates.size := by
  have positive : branch.candidates.size ≠ 0 := by
    intro zero
    rw [Std.ExtTreeMap.eq_empty_iff_size_eq_zero.mpr zero] at known
    simp at known
  rw [withoutCandidate, Std.ExtTreeMap.size_erase, if_pos (Std.ExtTreeMap.mem_iff_contains.mp known)]
  omega

/-- The candidates in the order in which they are chosen, where each is dropped before the next one is
chosen. -/
def choices (branch : Branch) : List Nat :=
  match _chosen : branch.latestCandidate? with
  | some latest => latest :: (branch.withoutCandidate latest).choices
  | none => []
termination_by branch.candidates.size
decreasing_by exact size_withoutCandidate_lt (latestCandidate?_eq_some_iff.mp _chosen).1

theorem mem_choices {id : Nat} : id ∈ branch.choices ↔ id ∈ branch.candidates := by
  fun_induction choices branch with
  | case1 branch latest chosen ih =>
      have known := (latestCandidate?_eq_some_iff.mp chosen).1
      rw [List.mem_cons, ih, mem_withoutCandidate]
      by_cases same : id = latest
      · simp [same, known]
      · simp [same]
  | case2 branch none =>
      simp [latestCandidate?_eq_none_iff.mp none]

theorem choices_descending : branch.choices.Pairwise fun earlier later => later < earlier := by
  fun_induction choices branch with
  | case1 branch latest chosen ih =>
      refine List.pairwise_cons.mpr ⟨fun other member => ?_, ih⟩
      rw [mem_choices, mem_withoutCandidate] at member
      have upTo := (latestCandidate?_eq_some_iff.mp chosen).2 other member.2
      omega
  | case2 branch none => exact .nil

theorem head?_choices : branch.choices.head? = branch.latestCandidate? := by
  fun_cases choices branch with
  | case1 latest chosen => rw [chosen, List.head?_cons]
  | case2 none => rw [none, List.head?_nil]

theorem latestCandidate?_behind_choices :
    (branch.choices.foldl withoutCandidate branch).latestCandidate? = none := by
  fun_induction choices branch with
  | case1 branch latest chosen ih => exact ih
  | case2 branch none => exact none

/-- The record that a successful choice leaves behind. Its bytes are handed out to their first readers. -/
structure Partitions (branch : Branch) (checkpoints : List Checkpoint) (selected : Branch)
    (latest : Nat) : Prop where
  frame : selected = { branch with candidates := selected.candidates }
  nonempty : ∀ {id : Nat} {bytes : Std.ExtTreeSet Nat}, selected.candidates[id]? = some bytes →
    bytes ≠ ∅
  disjoint : ∀ {one other address : Nat}, address ∈ selected.candidateBytes one →
    address ∈ selected.candidateBytes other → one = other
  covers : ∀ address, address ∈ branch.inputDependencies ↔ ∃ id, address ∈ selected.candidateBytes id
  first : ∀ {id address : Nat}, address ∈ branch.inputDependencies →
    (address ∈ selected.candidateBytes id ↔ FirstReader checkpoints id address)
  chosen : latest ∈ selected.candidates ∧ ∀ other ∈ selected.candidates, other ≤ latest
  visited : ∀ {id : Nat}, id ∈ selected.choices ↔ id ∈ selected.candidates
  startsAt : selected.choices.head? = some latest
  descending : selected.choices.Pairwise fun earlier later => later < earlier
  exhausted : (selected.choices.foldl withoutCandidate selected).latestCandidate? = none

theorem Distributed.partitions {candidates : Std.ExtTreeMap Nat (Std.ExtTreeSet Nat)}
    (distributed : Distributed branch.inputDependencies ∅ 0 checkpoints ∅ candidates)
    (frame : selected = { branch with candidates := candidates })
    (chosen : selected.latestCandidate? = some latest) :
    branch.Partitions checkpoints selected latest := by
  have same : selected.candidates = candidates := by rw [frame]
  have dependencies : selected.inputDependencies = branch.inputDependencies := by rw [frame]
  have shared : selected.Shared := Distributed.shared (dependencies ▸ distributed) same
  have owned : ∀ {id address : Nat}, address ∈ selected.candidateBytes id ↔
      ∃ bytes, selected.candidates[id]? = some bytes ∧ address ∈ bytes := by
    intro id address
    cases found : selected.candidates[id]? <;> simp [candidateBytes, found]
  have part : ∀ {id address : Nat}, address ∈ selected.candidateBytes id ↔
      address ∈ branch.inputDependencies ∧ FirstReader checkpoints id address := by
    intro id address
    rw [owned]
    constructor
    · rintro ⟨bytes, found, member⟩
      rw [same, ← Nat.zero_add id] at found
      exact ((distributed.part found).2 address).mp member
    · rintro ⟨member, reader⟩
      have known := distributed.covers member reader
      rw [Nat.zero_add] at known
      obtain ⟨bytes, found⟩ := Option.isSome_iff_exists.mp
        (Std.ExtTreeMap.mem_iff_isSome_getElem?.mp known)
      refine ⟨bytes, same ▸ found, ?_⟩
      rw [← Nat.zero_add id] at found
      exact ((distributed.part found).2 address).mpr ⟨member, reader⟩
  refine ⟨same ▸ frame, shared.nonempty, fun {one other address} member memberToo => ?_,
    fun address => ?_, fun member => ?_, latestCandidate?_eq_some_iff.mp chosen, mem_choices,
    head?_choices.trans chosen, choices_descending, latestCandidate?_behind_choices⟩
  · exact firstReader_unique (part.mp member).2 (part.mp memberToo).2
  · rw [← dependencies, shared.covers]
    simp only [owned]
  · rw [part]
    exact and_iff_right member

theorem Partitions.dependent (partitions : branch.Partitions checkpoints selected latest) :
    branch.inputDependencies ≠ ∅ := by
  intro nothing
  obtain ⟨bytes, found⟩ := Option.isSome_iff_exists.mp
    (Std.ExtTreeMap.mem_iff_isSome_getElem?.mp partitions.chosen.1)
  refine partitions.nonempty found (Std.ExtTreeSet.ext_mem fun address => ?_)
  have nowhere := mt (partitions.covers address).mpr (by simp [nothing])
  simp only [Std.ExtTreeSet.not_mem_empty, iff_false]
  exact fun member => nowhere ⟨latest, by simpa [candidateBytes, found] using member⟩

inductive Chooses (branch : Branch) (checkpoints : List Checkpoint) :
    Branch × Except Fault Nat → Prop
  | chosen (selected : Branch) (latest : Nat) (dependent : branch.inputDependencies ≠ ∅)
    (covered : ∀ address ∈ branch.inputDependencies, ¬ Unread checkpoints address)
    (partitions : branch.Partitions checkpoints selected latest) :
    Chooses _ _ (selected, .ok latest)
  | uncovered (selected : Branch) (address : Nat) (member : address ∈ branch.inputDependencies)
    (unread : Unread checkpoints address)
    (least : ∀ other ∈ branch.inputDependencies, Unread checkpoints other → address ≤ other) :
    Chooses _ _ (selected, .error (.violation (.uncovered branch.position address)))
  | independent (selected : Branch) (nothing : branch.inputDependencies = ∅) :
    Chooses _ _ (selected, .error (.noDependencies branch.position))

theorem chooseCandidates_chooses (branch : Branch) (checkpoints : List Checkpoint) :
    branch.Chooses checkpoints (branch.chooseCandidates checkpoints) := by
  have spread := distribute_distributed branch.inputDependencies ∅ 0 checkpoints (by simp)
  simp only [chooseCandidates]
  generalize distribute branch.inputDependencies ∅ 0 checkpoints = result at spread ⊢
  obtain ⟨left, candidates⟩ := result
  simp only [← Std.ExtTreeSet.min?_eq_head?_toList]
  cases first : left.min? with
  | some address =>
      obtain ⟨member, unread⟩ := (spread.left address).mp (Std.ExtTreeSet.min?_mem first)
      refine .uncovered _ address member unread fun other memberToo unreadToo => ?_
      have inside : other ∈ left := (spread.left other).mpr ⟨memberToo, unreadToo⟩
      exact Nat.isLE_compare.mp (Std.ExtTreeSet.min?_le_of_mem inside
        ((Option.get_of_eq_some _ first) :))
  | none =>
      have nothing : left = ∅ := Std.ExtTreeSet.min?_eq_none_iff.mp first
      subst nothing
      have covered : ∀ address ∈ branch.inputDependencies, ¬ Unread checkpoints address :=
        fun address member unread => by simpa using (spread.left address).mpr ⟨member, unread⟩
      cases chosen : ({ branch with candidates := candidates } : Branch).latestCandidate? with
      | some latest =>
          have partitions := spread.partitions rfl chosen
          exact .chosen _ latest partitions.dependent covered partitions
      | none =>
          refine .independent _ (Std.ExtTreeSet.ext_mem fun address => ?_)
          have without : candidates = ∅ := latestCandidate?_eq_none_iff.mp chosen
          simp only [Std.ExtTreeSet.not_mem_empty, iff_false]
          intro member
          obtain ⟨place, reader⟩ := exists_firstReader (not_unread_iff.mp (covered address member))
          have known := spread.covers member reader
          simp [without] at known

/-- A choice of candidates succeeds if and only if there are bytes to hand out and each of them is read by
some checkpoint. Then every byte belongs to its first reader and the latest of the candidates is chosen.
Otherwise the first of the bytes that nothing reads is reported. -/
theorem chooseCandidates_partitions (branch : Branch) (checkpoints : List Checkpoint) :
    ((∃ selected latest, branch.chooseCandidates checkpoints = (selected, .ok latest)) ↔
      branch.inputDependencies ≠ ∅ ∧
        ∀ address ∈ branch.inputDependencies, ¬ Unread checkpoints address) ∧
    (∀ {selected : Branch} {latest : Nat},
      branch.chooseCandidates checkpoints = (selected, .ok latest) →
        branch.Partitions checkpoints selected latest) ∧
    (∀ address, (branch.chooseCandidates checkpoints).2 =
        .error (.violation (.uncovered branch.position address)) ↔
      address ∈ branch.inputDependencies ∧ Unread checkpoints address ∧
        ∀ other ∈ branch.inputDependencies, Unread checkpoints other → address ≤ other) ∧
    ((branch.chooseCandidates checkpoints).2 = .error (.noDependencies branch.position) ↔
      branch.inputDependencies = ∅) := by
  have chooses := branch.chooseCandidates_chooses checkpoints
  generalize branch.chooseCandidates checkpoints = result at chooses ⊢
  cases chooses with
  | chosen selected latest dependent covered partitions =>
      refine ⟨iff_of_true ⟨selected, latest, rfl⟩ ⟨dependent, covered⟩, ?_, fun address => ?_, ?_⟩
      · rintro _ _ ⟨rfl, rfl⟩
        exact partitions
      · exact iff_of_false (by simp) fun ⟨member, unread, _⟩ => covered address member unread
      · exact iff_of_false (by simp) dependent
  | uncovered selected address member unread least =>
      refine ⟨iff_of_false (by simp) fun ⟨_, covered⟩ => covered address member unread, by simp,
        fun other => ?_, iff_of_false (by simp) fun nothing => by simp [nothing] at member⟩
      simp only [Except.error.injEq, Fault.violation.injEq, Violation.uncovered.injEq, true_and]
      constructor
      · rintro rfl
        exact ⟨member, unread, least⟩
      · rintro ⟨memberToo, unreadToo, leastToo⟩
        exact Nat.le_antisymm (least other memberToo unreadToo) (leastToo address member unread)
  | independent selected nothing =>
      simp [nothing]

def rereading : List Checkpoint :=
  [(12, [3]), (20, [3, 4]), (30, [5]), (40, [6])].map fun (position, bytes) =>
    .create position ⟨codeBase, ∅⟩ (Std.ExtTreeSet.ofList bytes)

def stale (bytes : List Nat) : Branch :=
  { Branch.create 0 4096 50 false with
    inputDependencies := Std.ExtTreeSet.ofList bytes
    candidates := Std.ExtTreeMap.ofList [(7, Std.ExtTreeSet.ofList [9])] }

theorem chooseCandidates_partitions_rereading :
    (∃ selected, (stale [3, 4, 5]).Partitions rereading selected 2 ∧
      selected.candidates.toList.map (fun entry => (entry.1, entry.2.toList)) =
        [(0, [3]), (1, [4]), (2, [5])]) ∧
    ((stale [3, 9, 8]).chooseCandidates rereading).2 = .error (.violation (.uncovered 50 8)) := by
  obtain ⟨_, partitions, _⟩ := chooseCandidates_partitions (stale [3, 4, 5]) rereading
  obtain ⟨_, _, uncovered, _⟩ := chooseCandidates_partitions (stale [3, 9, 8]) rereading
  refine ⟨⟨((stale [3, 4, 5]).chooseCandidates rereading).1, partitions ?_, by decide +kernel⟩,
    (uncovered 8).mpr ?_⟩
  · exact Prod.ext rfl (by decide +kernel)
  · simp [Unread, rereading, stale, Checkpoint.create]

end Branch

end BranchSteer
