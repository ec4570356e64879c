import BranchSteer.Proofs.Seeds

/-!
Records only move forward. Whatever the engine is asked, and whether it fails or not, a record keeps what it
tells of its execution, an input that is known for an outcome stays, and marks are never taken back.
-/

namespace BranchSteer

namespace Branch

structure Forward (old new : Branch) : Prop where
  phase : new.phase = old.phase
  address : new.address = old.address
  position : new.position = old.position
  taken : new.taken = old.taken
  resolved : old.isResolved → new.isResolved
  bypassed : old.isBypassed → new.isBypassed
  explored : old.explored → new.explored
  input : ∀ {outcome : Bool} {input : List UInt8}, old.inputLeadingTo outcome = some input →
    new.inputLeadingTo outcome = some input

theorem Forward.refl (branch : Branch) : branch.Forward branch :=
  ⟨rfl, rfl, rfl, rfl, id, id, id, id⟩

theorem Forward.trans {old middle new : Branch} (one : old.Forward middle)
    (two : middle.Forward new) : old.Forward new :=
  ⟨two.phase.trans one.phase, two.address.trans one.address, two.position.trans one.position,
    two.taken.trans one.taken, two.resolved ∘ one.resolved, two.bypassed ∘ one.bypassed,
    two.explored ∘ one.explored, fun known => two.input (one.input known)⟩

/-- A record that was flipped in between knows an input for its other outcome, and one of the right length.
It is not given up as well. -/
structure Progress (size : Nat) (old new : Branch) : Prop extends Forward old new where
  exclusive : ¬ (old.isResolved ∧ old.isBypassed) → ¬ (new.isResolved ∧ new.isBypassed)
  flips : new.isResolved → old.isResolved ∨ new.flippingInput.isSome
  sized : ∀ {input : List UInt8}, new.flippingInput = some input →
    old.flippingInput = some input ∨ input.length = size

theorem flippingInput_of_forward {old new : Branch} (forward : old.Forward new)
    {input : List UInt8} (known : old.flippingInput = some input) :
    new.flippingInput = some input := by
  rw [flippingInput, forward.taken]
  exact forward.input known

theorem Progress.refl (size : Nat) (branch : Branch) : branch.Progress size branch :=
  ⟨.refl branch, id, Or.inl, Or.inl⟩

theorem Progress.trans {size : Nat} {old middle new : Branch} (one : old.Progress size middle)
    (two : middle.Progress size new) : old.Progress size new := by
  refine ⟨one.toForward.trans two.toForward, two.exclusive ∘ one.exclusive, ?_, ?_⟩
  · intro resolved
    rcases two.flips resolved with earlier | known
    · apply (one.flips earlier).imp id
      intro known
      obtain ⟨input, found⟩ := Option.isSome_iff_exists.mp known
      rw [flippingInput_of_forward two.toForward found]
      rfl
    · exact Or.inr known
  · intro input known
    rcases two.sized known with earlier | fits
    · exact one.sized earlier
    · exact Or.inr fits

variable {size : Nat}

/-- A flipped record knows the input for its other outcome, and any such input has the right length. No
record is flipped and given up. -/
structure Known (size : Nat) (branch : Branch) : Prop where
  exclusive : ¬ (branch.isResolved ∧ branch.isBypassed)
  flips : branch.isResolved → branch.flippingInput.isSome
  sized : ∀ {input : List UInt8}, branch.flippingInput = some input → input.length = size

theorem Progress.known {old new : Branch} (progress : old.Progress size new) (known : old.Known size) :
    new.Known size := by
  refine ⟨progress.exclusive known.exclusive, ?_, ?_⟩
  · intro resolved
    rcases progress.flips resolved with earlier | found
    · obtain ⟨input, found⟩ := Option.isSome_iff_exists.mp (known.flips earlier)
      rw [flippingInput_of_forward progress.toForward found]
      rfl
    · exact found
  · intro input found
    rcases progress.sized found with earlier | fits
    · exact known.sized earlier
    · exact fits

theorem progress_of_frame {old new : Branch} (frame : new = { old with
    inputDependencies := new.inputDependencies
    otherDependencies := new.otherDependencies
    traces := new.traces
    candidates := new.candidates }) : old.Progress size new := by
  rw [frame]
  exact ⟨⟨rfl, rfl, rfl, rfl, id, id, id, id⟩, id, Or.inl, Or.inl⟩

theorem progress_bypass (branch : Branch) : branch.Progress size branch.bypass := by
  unfold bypass
  split
  · exact .refl size branch
  · rename_i unresolved
    exact ⟨⟨rfl, rfl, rfl, rfl, id, fun _ => rfl, id, id⟩, fun _ both => unresolved both.1, Or.inl,
      Or.inl⟩

theorem progress_explore (branch : Branch) : branch.Progress size branch.explore :=
  ⟨⟨rfl, rfl, rfl, rfl, id, id, fun _ => rfl, id⟩, id, Or.inl, Or.inl⟩

theorem inputLeadingTo_remember (branch : Branch) (outcome other : Bool) (input : List UInt8) :
    (branch.remember outcome input).inputLeadingTo other =
      if outcome = other then (branch.inputLeadingTo other).or (some input)
      else branch.inputLeadingTo other := by
  cases outcome <;> cases other <;> rfl

theorem forward_remember (branch : Branch) (outcome : Bool) (input : List UInt8) :
    branch.Forward (branch.remember outcome input) := by
  have kept : ∀ {other : Bool} {known : List UInt8}, branch.inputLeadingTo other = some known →
      (branch.remember outcome input).inputLeadingTo other = some known := by
    intro other known found
    rw [inputLeadingTo_remember, found]
    split <;> rfl
  cases outcome <;> exact ⟨rfl, rfl, rfl, rfl, id, id, id, kept⟩

theorem progress_resolve (branch : Branch) {input : List UInt8} (length : input.length = size) :
    branch.Progress size (branch.resolve input) := by
  unfold resolve
  split
  · exact .refl size branch
  · rename_i unbypassed
    have forward := forward_remember branch (!branch.taken) input
    have flipping : ({ branch.remember (!branch.taken) input with
        isResolved := true } : Branch).flippingInput = branch.flippingInput.or (some input) := by
      rw [flippingInput, show ({ branch.remember (!branch.taken) input with
        isResolved := true } : Branch).taken = branch.taken from forward.taken]
      exact (inputLeadingTo_remember branch (!branch.taken) (!branch.taken) input).trans
        (if_pos rfl)
    have bypassed : (branch.remember (!branch.taken) input).isBypassed = branch.isBypassed := by
      unfold remember
      split <;> rfl
    refine ⟨⟨forward.phase, forward.address, forward.position, forward.taken, fun _ => rfl,
      forward.bypassed, forward.explored, forward.input⟩, fun _ both =>
        unbypassed (bypassed ▸ both.2), ?_, ?_⟩
    · intro _
      rw [flipping]
      cases branch.flippingInput <;> exact Or.inr rfl
    · intro known found
      rw [flipping] at found
      cases old : branch.flippingInput with
      | some first =>
          rw [old] at found
          exact Or.inl found
      | none =>
          rw [old, Option.none_or, Option.some.injEq] at found
          exact Or.inr (found ▸ length)

theorem progress_chooseCandidates (branch : Branch) (checkpoints : List Checkpoint) :
    branch.Progress size (branch.chooseCandidates checkpoints).1 := by
  unfold chooseCandidates
  simp only
  split
  · exact progress_of_frame rfl
  · split <;> exact progress_of_frame rfl

theorem progress_survey {engine : Engine} {checkpoints : List Checkpoint} {old new : Branch}
    (done : engine.survey checkpoints old = .ok new) : old.Progress size new := by
  unfold Engine.survey at done
  split at done
  · rw [Except.ok.injEq] at done
    exact done ▸ .refl size old
  · simp only at done
    split at done
    · simp at done
    · rename_i selected _ chosen
      have selects : old.Progress size selected :=
        (progress_of_frame rfl).trans
          (congrArg Prod.fst chosen ▸ progress_chooseCandidates _ checkpoints)
      rw [Except.ok.injEq] at done
      subst done
      split
      · exact selects.trans (progress_bypass selected)
      · exact selects

end Branch

theorem forall₂_of_positions {relation : Branch → Branch → Prop} {olds news : List Branch}
    (distinct : olds.Pairwise fun first second => first.position ≠ second.position)
    (positions : news.map (·.position) = olds.map (·.position))
    (origin : ∀ new ∈ news, ∃ old ∈ olds, new.position = old.position ∧ relation old new) :
    List.Forall₂ relation olds news := by
  induction olds generalizing news with
  | nil =>
      rw [List.map_nil, List.map_eq_nil_iff] at positions
      subst positions
      exact .nil
  | cons old olds ih =>
      cases news with
      | nil => simp at positions
      | cons new news =>
          rw [List.map_cons, List.map_cons, List.cons.injEq] at positions
          rw [List.pairwise_cons] at distinct
          rw [List.forall_mem_cons] at origin
          obtain ⟨first, member, same, related⟩ := origin.1
          have here : first = old := by
            rcases List.mem_cons.mp member with rfl | later
            · rfl
            · exact absurd (positions.1.symm.trans same) (distinct.1 first later)
          refine .cons (here ▸ related) (ih distinct.2 positions.2 ?_)
          intro other listed
          obtain ⟨source, among, place, relatedToo⟩ := origin.2 other listed
          refine ⟨source, (List.mem_cons.mp among).resolve_left ?_, place, relatedToo⟩
          rintro rfl
          have later : other.position ∈ olds.map (·.position) :=
            positions.2 ▸ List.mem_map_of_mem listed
          obtain ⟨twin, known, twice⟩ := List.mem_map.mp later
          exact distinct.1 twin known (place.symm.trans twice.symm)

namespace Flow.Branches

variable {size : Nat} {before after : Branches}

/-- All records of a map moved forward. -/
abbrev Progress (size : Nat) (before after : Branches) : Prop :=
  Retold (fun _ => Branch.Progress size) before after

theorem Progress.refl (size : Nat) (branches : Branches) : Progress size branches branches :=
  Retold.refl (fun _ => Branch.Progress.refl size) branches

theorem Progress.trans {middle : Branches} (one : Progress size before middle)
    (two : Progress size middle after) : Progress size before after :=
  Retold.trans (fun first second => first.trans second) one two

theorem Progress.keyed (progress : Progress size before after) (keyed : Keyed before) :
    Keyed after :=
  Retold.keyed progress keyed fun related => related.position

theorem Progress.insert (keyed : Keyed before) {position : Nat} {old new : Branch}
    (found : before[position]? = some old) (progress : old.Progress size new) :
    Progress size before (before.insert new.position new) := by
  rw [progress.position, keyed position old found]
  exact Retold.insert (fun _ => Branch.Progress.refl size) found progress

theorem Progress.forall₂ (progress : Progress size before after) (keyed : Keyed before) :
    List.Forall₂ (Branch.Progress size) before.inTraceOrder after.inTraceOrder := by
  apply forall₂_of_positions (keyed.increasing.imp Nat.ne_of_lt)
    (Retold.positions_eq progress keyed (progress.keyed keyed))
  intro new member
  obtain ⟨_, old, listed, related⟩ := Retold.exists_of_mem progress member
  exact ⟨old, listed, related.position, related⟩

end Flow.Branches

namespace Flow.Graph

variable {graph : Graph} {size : Nat} {before after : Branches}

theorem progress_attributeScanned {search : Search} {address start : Nat} {edges : List Edge}
    {skipped : Std.ExtTreeSet Nat} (keyed : Branches.Keyed before)
    (done : graph.attributeScanned search address start edges skipped before = .ok after) :
    Branches.Progress size before after := by
  induction edges generalizing skipped before with
  | nil =>
      rw [attributeScanned, Except.ok.injEq] at done
      exact done ▸ .refl size before
  | cons edge rest ih =>
      simp only [attributeScanned] at done
      split at done
      · exact ih keyed done
      · split at done
        · exact ih keyed done
        · rename_i branch found
          split at done
          · simp at done
          · rename_i trace _
            have first : Branches.Progress size before
                (before.insert edge.position (branch.dependOn address trace)) :=
              Branches.Retold.insert (fun _ => Branch.Progress.refl size) found
                (Branch.progress_of_frame rfl)
            exact first.trans (ih (first.keyed keyed) done)

theorem progress_attributeInputs {imports : List (Nat × Nat)} (keyed : Branches.Keyed before)
    (done : graph.attributeInputs imports before = .ok after) :
    Branches.Progress size before after := by
  induction imports generalizing before with
  | nil =>
      rw [attributeInputs, Except.ok.injEq] at done
      exact done ▸ .refl size before
  | cons entry rest ih =>
      simp only [attributeInputs] at done
      split at done
      · simp at done
      · rename_i middle scanned
        have first : Branches.Progress size before middle := progress_attributeScanned keyed scanned
        exact first.trans (ih (first.keyed keyed) done)

theorem progress_attribution (keyed : Branches.Keyed before)
    (done : graph.attribution before = .ok after) : Branches.Progress size before after :=
  progress_attributeInputs keyed done

end Flow.Graph

namespace Flow.Branches

variable {size : Nat} {before : Branches}

theorem progress_branchesOf (keyed : Keyed before) {records : List Branch}
    (each : List.Forall₂ (Branch.Progress size) before.inTraceOrder records) :
    Progress size before (Engine.branchesOf records) := by
  apply keyed.retold_branchesOf
  · have same : List.Forall₂ Eq (records.map (·.position)) (before.inTraceOrder.map (·.position)) := by
      rw [List.forall₂_map_left_iff, List.forall₂_map_right_iff]
      exact .flip (each.imp fun _ _ related => related.position)
    exact List.forall₂_eq_eq_eq ▸ same
  · intro branch member
    obtain ⟨old, listed, related⟩ := exists_of_mem_forall₂ each member
    exact ⟨old, listed, related.position, related⟩

end Flow.Branches

end BranchSteer
