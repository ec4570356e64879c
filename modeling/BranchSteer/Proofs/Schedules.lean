import BranchSteer.Proofs.AttemptedInput

/-!
The schedule of the attempts at a single byte. It holds every value that the byte does not have already,
in an order that depends on the random seed, and each of them once at most.
-/

namespace BranchSteer

namespace Random

theorem shuffleFrom_perm {α : Type} (last : Nat) (values : Array α) (random : Random) :
    (random.shuffleFrom last values).1.Perm values := by
  induction last generalizing values random with
  | zero => exact .refl _
  | succ last ih =>
      simp only [shuffleFrom]
      refine (ih _ _).trans ?_
      rw [Array.swapIfInBounds_def]
      split
      · split
        · exact Array.swap_perm _ _
        · exact .refl _
      · exact .refl _

theorem shuffle_perm {α : Type} (values : Array α) (random : Random) :
    (random.shuffle values).1.Perm values :=
  shuffleFrom_perm _ _ _

end Random

theorem mem_singleton (address other : Nat) :
    other ∈ ({address} : Std.ExtTreeSet Nat) ↔ other = address := by
  rw [Std.ExtTreeSet.singleton_eq_insert, Std.ExtTreeSet.mem_insert, Nat.compare_eq_eq]
  simp [eq_comm]

theorem size_singleton (address : Nat) : ({address} : Std.ExtTreeSet Nat).size = 1 := by
  rw [Std.ExtTreeSet.singleton_eq_insert, Std.ExtTreeSet.size_insert]
  simp

theorem toList_singleton (address : Nat) :
    ({address} : Std.ExtTreeSet Nat).toList = [address] := by
  have length : ({address} : Std.ExtTreeSet Nat).toList.length = 1 :=
    Std.ExtTreeSet.length_toList.trans (size_singleton address)
  obtain ⟨only, same⟩ := List.length_eq_one_iff.mp length
  have member : only ∈ ({address} : Std.ExtTreeSet Nat).toList := same ▸ List.mem_singleton_self only
  rw [Std.ExtTreeSet.mem_toList, mem_singleton] at member
  rw [same, member]

theorem eq_singleton_of_part {bytes : Std.ExtTreeSet Nat} {address : Nat} (nonempty : bytes ≠ ∅)
    (part : ∀ other ∈ bytes, other = address) : bytes = {address} := by
  obtain ⟨least, found⟩ := Option.isSome_iff_exists.mp (Std.ExtTreeSet.isSome_min?_iff_ne_empty.mpr
    nonempty)
  have member := Std.ExtTreeSet.min?_mem found
  apply Std.ExtTreeSet.ext_mem
  intro other
  rw [mem_singleton]
  refine ⟨part other, ?_⟩
  rintro rfl
  exact part least member ▸ member

namespace Recording

def Differs (recording : Recording) (address : Nat) (value : UInt8) : Prop :=
  recording.baseInput[address - recording.input.address]? ≠ some value

def changed (recording : Recording) (address : Nat) (value : UInt8) : List UInt8 :=
  recording.baseInput.set (address - recording.input.address) value

end Recording

namespace Engine

variable {engine : Engine} {address : Nat} {value : UInt8}

theorem mem_values (value : UInt8) : value ∈ (List.range 256).map UInt8.ofNat :=
  List.mem_map.mpr ⟨value.toNat, List.mem_range.mpr value.toNat_lt, UInt8.ofNat_toNat⟩

theorem mem_makeSchedule (inside : engine.input.contains address) :
    value ∈ (engine.makeSchedule {address}).1 ↔ engine.recording.Differs address value := by
  simp only [makeSchedule, toList_singleton, List.mem_reverse, Array.mem_toList_iff,
    (Random.shuffle_perm _ _).mem_iff, List.mem_toArray, List.mem_filter, mem_values, true_and,
    InputBuffer.index?, inside, if_true, Option.bind_some, decide_eq_true_eq]
  exact ne_comm

theorem nodup_values : ((List.range 256).map UInt8.ofNat).Nodup := by
  refine List.pairwise_map.mpr (List.nodup_range.imp_of_mem fun {first second} low high differs => ?_)
  rw [List.mem_range] at low high
  intro same
  have values := congrArg UInt8.toNat same
  rw [UInt8.toNat_ofNat_of_lt' low, UInt8.toNat_ofNat_of_lt' high] at values
  exact differs values

/-- All values but one are scheduled. -/
theorem makeSchedule_perm (inside : engine.input.contains address) {own : UInt8}
    (known : engine.baseInput[address - engine.input.address]? = some own) :
    (engine.makeSchedule {address}).1.Perm (((List.range 256).map UInt8.ofNat).erase own) := by
  rw [nodup_values.erase_eq_filter]
  simp only [makeSchedule, toList_singleton, InputBuffer.index?, inside, if_true, Option.bind_some,
    known, ne_eq, Option.some.injEq]
  refine (List.reverse_perm _).trans ((Array.perm_iff_toList_perm.mp (Random.shuffle_perm _ _)).trans
    (.of_eq ?_))
  exact List.filter_congr fun value _ => by simp [bne, beq_eq_decide]

theorem length_makeSchedule (inside : engine.input.contains address)
    (length : engine.baseInput.length = engine.input.length) :
    (engine.makeSchedule {address}).1.length = 255 := by
  have bounds := (InputBuffer.contains_iff _ _).mp inside
  have known : engine.baseInput[address - engine.input.address]? =
      some engine.baseInput[address - engine.input.address] := List.getElem?_eq_getElem (by omega)
  rw [(makeSchedule_perm inside known).length_eq, List.length_erase_of_mem (mem_values _),
    List.length_map, List.length_range]

theorem patchInput_singleton {memory : Memory} (inside : engine.input.contains address)
    (held : memory.byte address = value) :
    engine.patchInput memory {address} = engine.recording.changed address value := by
  have bounds := (InputBuffer.contains_iff _ _).mp inside
  apply List.ext_getElem?
  intro offset
  have here : engine.input.address + offset = address ↔ address - engine.input.address = offset := by
    omega
  have input : engine.recording.input = engine.input := rfl
  have baseInput : engine.recording.baseInput = engine.baseInput := rfl
  simp only [getElem?_patchInput, Recording.changed, List.getElem?_set', mem_singleton, here, input,
    baseInput]
  split
  · rename_i same
    rw [here.mpr same, held]
    rfl
  · exact Option.map_id_apply

theorem value?_nextPerturbation {resolution : Resolution} {rest : List UInt8}
    (perturbed : resolution.perturbed = {address}) (next : resolution.schedule = value :: rest)
    (input : InputBuffer) (random : Random) :
    (nextPerturbation resolution).value? input random address = some value := by
  simp only [nextPerturbation, next, perturbed, toList_singleton, Perturbation.value?,
    List.map_cons, List.map_nil]
  simp

theorem makeSchedule_of_size_ne {bytes : Std.ExtTreeSet Nat} (several : bytes.size ≠ 1) :
    (engine.makeSchedule bytes).1 = [] := by
  unfold makeSchedule
  split
  · rename_i only
    exact absurd (Std.ExtTreeSet.length_toList.symm.trans (congrArg List.length only)) several
  · rfl

theorem insertMany_released {bytes released : Std.ExtTreeSet Nat} (single : bytes = {address})
    (known : ∀ other ∈ released, other = address) : bytes.insertMany released.toList = {address} := by
  apply Std.ExtTreeSet.ext_mem
  intro other
  rw [Std.ExtTreeSet.mem_insertMany_list, List.contains_iff_mem, Std.ExtTreeSet.mem_toList, single,
    mem_singleton]
  exact or_iff_left_of_imp (known other)

end Engine

end BranchSteer
