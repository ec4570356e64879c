import BranchSteer.Proofs.Surveys
import BranchSteer.Proofs.Treatments

/-!
The bytes that are perturbed at the candidates of a branch. Right behind the survey the candidates share
the bytes of the branch out among them. At each of them its own bytes are perturbed and those of all later
ones, which were given up before.
-/

namespace BranchSteer

namespace Branch

/-- The bytes of a candidate and of all later ones. -/
def pool (branch : Branch) (id : Nat) : Std.ExtTreeSet Nat :=
  Std.ExtTreeSet.ofList ((branch.candidates.toList.filter fun entry => id ≤ entry.1).flatMap
    fun entry => entry.2.toList)

/-- How many attempts are made at a candidate unless one of them flips the branch. A single byte has no
more than 255 other values. -/
def allowance (branch : Branch) (limit id : Nat) : Nat :=
  if (branch.pool id).size = 1 then min (max 1 limit) 255 else max 1 limit

structure Shared (branch : Branch) : Prop where
  nonempty : ∀ {id : Nat} {bytes : Std.ExtTreeSet Nat}, branch.candidates[id]? = some bytes →
    bytes ≠ ∅
  disjoint : ∀ {one other address : Nat} {first second : Std.ExtTreeSet Nat},
    branch.candidates[one]? = some first → branch.candidates[other]? = some second →
      address ∈ first → address ∈ second → one = other
  covers : ∀ address, address ∈ branch.inputDependencies ↔ ∃ (id : Nat) (bytes : Std.ExtTreeSet Nat),
    branch.candidates[id]? = some bytes ∧ address ∈ bytes

variable {branch : Branch} {id address : Nat}

theorem mem_pool : address ∈ branch.pool id ↔ ∃ (later : Nat) (bytes : Std.ExtTreeSet Nat),
    id ≤ later ∧ branch.candidates[later]? = some bytes ∧ address ∈ bytes := by
  simp only [pool, Std.ExtTreeSet.mem_ofList, List.contains_iff_mem, List.mem_flatMap,
    List.mem_filter, Std.ExtTreeSet.mem_toList, decide_eq_true_eq, Prod.exists,
    Std.ExtTreeMap.mem_toList_iff_getElem?_eq_some]
  exact ⟨fun ⟨later, bytes, ⟨found, bound⟩, member⟩ => ⟨later, bytes, bound, found, member⟩,
    fun ⟨later, bytes, bound, found, member⟩ => ⟨later, bytes, ⟨found, bound⟩, member⟩⟩

theorem mem_pool_succ : address ∈ branch.pool id ↔
    address ∈ branch.candidateBytes id ∨ address ∈ branch.pool (id + 1) := by
  simp only [mem_pool, candidateBytes]
  constructor
  · rintro ⟨later, bytes, bound, found, member⟩
    rcases Nat.lt_or_eq_of_le bound with above | rfl
    · exact Or.inr ⟨later, bytes, above, found, member⟩
    · exact Or.inl (by simpa [found] using member)
  · rintro (own | ⟨later, bytes, bound, found, member⟩)
    · cases found : branch.candidates[id]? with
      | none => simp [found] at own
      | some bytes => exact ⟨id, bytes, Nat.le_refl id, found, by simpa [found] using own⟩
    · exact ⟨later, bytes, Nat.le_of_succ_le bound, found, member⟩

theorem pool_eq_of_gap {low high : Nat} (upTo : low ≤ high)
    (gap : ∀ between ∈ branch.candidates, low ≤ between → high ≤ between) :
    branch.pool low = branch.pool high := by
  apply Std.ExtTreeSet.ext_mem
  intro address
  simp only [mem_pool]
  constructor
  · rintro ⟨later, bytes, bound, found, member⟩
    have known : later ∈ branch.candidates :=
      Std.ExtTreeMap.mem_iff_isSome_getElem?.mpr (by simp [found])
    exact ⟨later, bytes, gap later known bound, found, member⟩
  · rintro ⟨later, bytes, bound, found, member⟩
    exact ⟨later, bytes, Nat.le_trans upTo bound, found, member⟩

theorem latestCandidate?_eq_some_iff : branch.latestCandidate? = some id ↔
    id ∈ branch.candidates ∧ ∀ other ∈ branch.candidates, other ≤ id := by
  simp only [latestCandidate?_eq_maxKey?, Std.ExtTreeMap.maxKey?_eq_some_iff_mem_and_forall,
    Nat.isLE_compare]

theorem latestCandidate?_eq_none_iff : branch.latestCandidate? = none ↔ branch.candidates = ∅ := by
  rw [latestCandidate?_eq_maxKey?, Std.ExtTreeMap.maxKey?_eq_none_iff]

theorem mem_withoutCandidate {other : Nat} :
    other ∈ (branch.withoutCandidate id).candidates ↔ other ≠ id ∧ other ∈ branch.candidates := by
  rw [withoutCandidate, Std.ExtTreeMap.mem_erase, Ne, Nat.compare_eq_eq, ne_comm]

theorem getElem?_withoutCandidate (branch : Branch) (id other : Nat) :
    (branch.withoutCandidate id).candidates[other]? =
      if id = other then none else branch.candidates[other]? := by
  simp only [withoutCandidate, Std.ExtTreeMap.getElem?_erase, Nat.compare_eq_eq]

theorem firstReader_unique {checkpoints : List Checkpoint} {one other : Nat}
    (first : FirstReader checkpoints one address) (second : FirstReader checkpoints other address) :
    one = other := by
  obtain ⟨⟨_, there, reads⟩, unread⟩ := first
  obtain ⟨⟨_, thereToo, readsToo⟩, unreadToo⟩ := second
  rcases Nat.lt_trichotomy one other with below | same | above
  · exact absurd reads (unreadToo below there)
  · exact same
  · exact absurd readsToo (unread above thereToo)

theorem Distributed.shared {checkpoints : List Checkpoint}
    {candidates : Std.ExtTreeMap Nat (Std.ExtTreeSet Nat)}
    (distributed : Distributed branch.inputDependencies ∅ 0 checkpoints ∅ candidates)
    (selected : branch.candidates = candidates) : branch.Shared := by
  obtain ⟨left, _, part, covers⟩ := distributed
  simp only [Nat.zero_add, ← selected] at part covers
  refine ⟨fun found => (part found).1, fun found foundToo member memberToo => ?_, fun address => ?_⟩
  · exact firstReader_unique (((part found).2 _).mp member).2 (((part foundToo).2 _).mp memberToo).2
  · constructor
    · intro member
      have read : ∃ checkpoint ∈ checkpoints, address ∈ checkpoint.inputBytes := by
        have handed := mt (left address).mpr (by simp)
        simpa [member] using handed
      obtain ⟨place, reader⟩ := exists_firstReader read
      obtain ⟨bytes, found⟩ := Option.isSome_iff_exists.mp
        (Std.ExtTreeMap.mem_iff_isSome_getElem?.mp (covers member reader))
      exact ⟨place, bytes, found, ((part found).2 address).mpr ⟨member, reader⟩⟩
    · rintro ⟨place, bytes, found, member⟩
      exact (((part found).2 address).mp member).1

theorem chooseCandidates_shared {checkpoints : List Checkpoint} {selected : Branch} {latest : Nat}
    (chosen : branch.chooseCandidates checkpoints = (selected, .ok latest)) : selected.Shared := by
  have spread := distribute_distributed branch.inputDependencies ∅ 0 checkpoints (by simp)
  simp only [chooseCandidates] at chosen
  generalize distribute branch.inputDependencies ∅ 0 checkpoints = result at chosen spread
  obtain ⟨left, candidates⟩ := result
  split at chosen
  · simp at chosen
  · rename_i nothing
    have all : left = ∅ := by
      rw [← Std.ExtTreeSet.min?_eq_head?_toList] at nothing
      exact Std.ExtTreeSet.min?_eq_none_iff.mp nothing
    subst all
    split at chosen
    · simp only [Prod.mk.injEq] at chosen
      rw [← chosen.1]
      exact Distributed.shared spread rfl
    · simp at chosen

theorem Shared.bypass (shared : branch.Shared) : branch.bypass.Shared := by
  unfold Branch.bypass
  split
  · exact shared
  · exact ⟨shared.nonempty, shared.disjoint, shared.covers⟩

end Branch

namespace Engine

variable {engine base after : Engine} {executions : List Execution} {old new : Branch}

theorem survey_shared {checkpoints : List Checkpoint} (unselected : old.candidates = ∅)
    (done : engine.survey checkpoints old = .ok new) : new.Shared := by
  unfold survey at done
  split at done
  · rename_i independent
    rw [Except.ok.injEq] at done
    subst done
    have nothing : old.inputDependencies = ∅ := by
      simpa [Branch.dependsOnInput] using independent
    exact ⟨by simp [unselected], by simp [unselected], by simp [unselected, nothing]⟩
  · simp only at done
    split at done
    · simp at done
    · rename_i selected latest chosen
      have shared := Branch.chooseCandidates_shared chosen
      rw [Except.ok.injEq] at done
      subst done
      split
      · exact shared.bypass
      · exact shared

theorem Tainting.shared (tainting : engine.Tainting executions) (surveys : engine.Surveys base)
    {position : Nat} {branch : Branch} (found : base.branches[position]? = some branch) :
    branch.Shared := by
  obtain ⟨surveyed, done, branches⟩ := surveys.selects
  obtain ⟨attributed, old, attribution, known, same⟩ :=
    tainting.exists_survey done (branches ▸ found)
  obtain ⟨_, attributedToo, retold⟩ :=
    Flow.Graph.attribution_attributed tainting.follows engine.branches
  rw [attribution, Except.ok.injEq] at attributedToo
  subst attributedToo
  obtain ⟨recorded, before, attributes, _⟩ := retold.origin known
  refine survey_shared ?_ same
  rw [attributes]
  exact (tainting.branch before).2.2.2

end Engine

end BranchSteer
