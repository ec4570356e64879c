import BranchSteer.Engine.Rewind

/-!
Maps of branch records by position: their list in trace order, the map that a list of records gives back,
and what the search for a seed does to them.
-/

namespace BranchSteer

namespace Flow.Branches

def Keyed (branches : Branches) : Prop :=
  ∀ (position : Nat) (branch : Branch), branches[position]? = some branch →
    branch.position = position

theorem exists_of_mem {branches : Branches} {branch : Branch}
    (member : branch ∈ branches.inTraceOrder) :
    ∃ position : Nat, branches[position]? = some branch := by
  simp only [inTraceOrder, List.mem_map] at member
  obtain ⟨⟨position, other⟩, listed, rfl⟩ := member
  exact ⟨position, Std.ExtTreeMap.mem_toList_iff_getElem?_eq_some.mp listed⟩

theorem mem_of_getElem? {branches : Branches} {branch : Branch} {position : Nat}
    (found : branches[position]? = some branch) : branch ∈ branches.inTraceOrder :=
  List.mem_map.mpr
    ⟨(position, branch), Std.ExtTreeMap.mem_toList_iff_getElem?_eq_some.mpr found, rfl⟩

theorem Keyed.getElem?_of_mem {branches : Branches} (keyed : Keyed branches) {branch : Branch}
    (member : branch ∈ branches.inTraceOrder) : branches[branch.position]? = some branch := by
  obtain ⟨position, found⟩ := exists_of_mem member
  rw [keyed _ _ found, found]

theorem Keyed.increasing {branches : Branches} (keyed : Keyed branches) :
    branches.inTraceOrder.Pairwise fun first second => first.position < second.position := by
  rw [inTraceOrder, List.pairwise_map]
  refine Std.ExtTreeMap.ordered_keys_toList.imp_of_mem fun {first second} left right ordered => ?_
  have leftKey := keyed _ _ (Std.ExtTreeMap.mem_toList_iff_getElem?_eq_some.mp left)
  have rightKey := keyed _ _ (Std.ExtTreeMap.mem_toList_iff_getElem?_eq_some.mp right)
  rw [leftKey, rightKey]
  exact Nat.compare_eq_lt.mp ordered

theorem Keyed.find?_eq_some {branches : Branches} (keyed : Keyed branches) {test : Branch → Bool}
    {branch : Branch} (first : branches.inTraceOrder.find? test = some branch) :
    branches[branch.position]? = some branch ∧ test branch ∧
      ∀ {position : Nat} {other : Branch}, branches[position]? = some other → test other →
        branch.position ≤ position := by
  refine ⟨keyed.getElem?_of_mem (List.mem_of_find?_eq_some first), List.find?_some first, ?_⟩
  intro position other found passes
  obtain ⟨_, before, after, shape, failing⟩ := List.find?_eq_some_iff_append.mp first
  have member := mem_of_getElem? found
  have ordered := keyed.increasing
  rw [shape] at member ordered
  rw [← keyed _ _ found]
  rcases List.mem_append.mp member with early | late
  · exact absurd passes (by simpa using failing other early)
  · rcases List.mem_cons.mp late with rfl | later
    · exact Nat.le_refl _
    · exact Nat.le_of_lt
        ((List.pairwise_cons.mp (List.pairwise_append.mp ordered).2.1).1 other later)

/-- Records were rewritten one by one. -/
structure Retold (relation : Nat → Branch → Branch → Prop) (before after : Branches) : Prop where
  origin : ∀ {position : Nat} {branch : Branch}, after[position]? = some branch →
    ∃ old, before[position]? = some old ∧ relation position old branch
  kept : ∀ {position : Nat}, position ∈ before → position ∈ after

namespace Retold

variable {relation : Nat → Branch → Branch → Prop} {before middle after : Branches}

theorem refl (reflexive : ∀ position branch, relation position branch branch)
    (branches : Branches) : Retold relation branches branches :=
  ⟨fun {position branch} found => ⟨branch, found, reflexive position branch⟩, id⟩

theorem trans {first second : Nat → Branch → Branch → Prop}
    (transitive : ∀ {position old middle new}, first position old middle →
      second position middle new → relation position old new)
    (one : Retold first before middle) (two : Retold second middle after) :
    Retold relation before after := by
  refine ⟨fun found => ?_, fun member => two.kept (one.kept member)⟩
  obtain ⟨next, foundNext, later⟩ := two.origin found
  obtain ⟨old, foundOld, earlier⟩ := one.origin foundNext
  exact ⟨old, foundOld, transitive earlier later⟩

theorem insert (reflexive : ∀ position branch, relation position branch branch) {position : Nat}
    {old new : Branch} (found : before[position]? = some old)
    (related : relation position old new) : Retold relation before (before.insert position new) := by
  constructor
  · intro other branch lookup
    simp only [Std.ExtTreeMap.getElem?_insert, Nat.compare_eq_eq] at lookup
    split at lookup
    · rename_i same
      subst same
      exact ⟨old, found, Option.some.inj lookup ▸ related⟩
    · exact ⟨branch, lookup, reflexive other branch⟩
  · exact fun member => Std.ExtTreeMap.mem_insert.mpr (Or.inr member)

theorem keyed (retold : Retold relation before after) (keyed : Keyed before)
    (positions : ∀ {position old new}, relation position old new →
      new.position = old.position) : Keyed after := by
  intro position branch found
  obtain ⟨old, foundOld, related⟩ := retold.origin found
  rw [positions related, keyed _ _ foundOld]

end Retold

theorem getElem?_branchesOf {records : List Branch}
    (distinct : records.Pairwise fun first second => first.position ≠ second.position)
    (position : Nat) (branch : Branch) :
    (Engine.branchesOf records)[position]? = some branch ↔
      branch ∈ records ∧ branch.position = position := by
  have keys : (records.map fun branch => (branch.position, branch)).Pairwise fun first second =>
      ¬ compare first.1 second.1 = .eq := by
    rw [List.pairwise_map]
    exact distinct.imp fun different same => different (Nat.compare_eq_eq.mp same)
  have here : ∀ other ∈ records, (Engine.branchesOf records)[other.position]? = some other :=
    fun other member => Std.ExtTreeMap.getElem?_ofList_of_mem Std.ReflCmp.compare_self keys
      (List.mem_map_of_mem member)
  constructor
  · intro found
    by_cases known : ∃ other ∈ records, other.position = position
    · obtain ⟨other, member, rfl⟩ := known
      rw [here other member, Option.some.injEq] at found
      exact found ▸ ⟨member, rfl⟩
    · have missing : (Engine.branchesOf records)[position]? = none := by
        apply Std.ExtTreeMap.getElem?_ofList_of_contains_eq_false
        simpa using known
      simp [missing] at found
  · rintro ⟨member, rfl⟩
    exact here branch member

theorem Keyed.retold_branchesOf {branches : Branches} (keyed : Keyed branches)
    (relation : Nat → Branch → Branch → Prop) {records : List Branch}
    (positions : records.map (·.position) = branches.inTraceOrder.map (·.position))
    (origin : ∀ branch ∈ records, ∃ old ∈ branches.inTraceOrder,
      branch.position = old.position ∧ relation old.position old branch) :
    Retold relation branches (Engine.branchesOf records) := by
  have distinct : records.Pairwise fun first second => first.position ≠ second.position := by
    rw [← List.pairwise_map (f := fun branch : Branch => branch.position)
      (R := fun first second => first ≠ second), positions, List.pairwise_map]
    exact keyed.increasing.imp Nat.ne_of_lt
  constructor
  · intro position branch found
    obtain ⟨member, rfl⟩ := (getElem?_branchesOf distinct position branch).mp found
    obtain ⟨old, listed, same, related⟩ := origin branch member
    rw [same]
    exact ⟨old, keyed.getElem?_of_mem listed, related⟩
  · intro position known
    obtain ⟨old, found⟩ := Option.isSome_iff_exists.mp
      (Std.ExtTreeMap.mem_iff_isSome_getElem?.mp known)
    have listed : old.position ∈ branches.inTraceOrder.map (·.position) :=
      List.mem_map_of_mem (mem_of_getElem? found)
    rw [← positions, List.mem_map] at listed
    obtain ⟨branch, member, same⟩ := listed
    rw [Std.ExtTreeMap.mem_iff_isSome_getElem?, (getElem?_branchesOf distinct position branch).mpr
      ⟨member, by rw [same, keyed _ _ found]⟩, Option.isSome_some]

end Flow.Branches

namespace Engine

def MayBeExplored (old new : Branch) : Prop := new = old ∨ new = old.explore

theorem MayBeExplored.position {old new : Branch} (marked : MayBeExplored old new) :
    new.position = old.position := by
  rcases marked with rfl | rfl <;> rfl

/-- The search for a seed marks records, and finds the input that one of them was flipped by. -/
theorem pickSeed_spec (covered : Outcomes) (records : List Branch) :
    (pickSeed covered records).1.map (·.position) = records.map (·.position) ∧
      (∀ branch ∈ (pickSeed covered records).1, ∃ old ∈ records, MayBeExplored old branch) ∧
      ∀ {address : Nat} {taken : Bool} {input : List UInt8},
        (pickSeed covered records).2 = some (address, taken, input) →
          ∃ branch ∈ records, branch.isResolved ∧ branch.flippingInput = some input := by
  induction records with
  | nil => simp [pickSeed]
  | cons branch rest ih =>
      obtain ⟨positions, origin, seed⟩ := ih
      -- In all cases but one the search goes on behind a record that may have been marked.
      have goesOn : ∀ marked, MayBeExplored branch marked →
          ((marked :: (pickSeed covered rest).1).map (·.position) =
            (branch :: rest).map (·.position)) ∧
          (∀ other ∈ marked :: (pickSeed covered rest).1,
            ∃ old ∈ branch :: rest, MayBeExplored old other) ∧
          ∀ {address : Nat} {taken : Bool} {input : List UInt8},
            (pickSeed covered rest).2 = some (address, taken, input) →
              ∃ other ∈ branch :: rest, other.isResolved ∧ other.flippingInput = some input := by
        intro marked may
        refine ⟨by simp [positions, may.position], ?_, fun found => ?_⟩
        · intro other member
          rcases List.mem_cons.mp member with rfl | later
          · exact ⟨branch, List.mem_cons_self, may⟩
          · obtain ⟨old, listed, related⟩ := origin other later
            exact ⟨old, List.mem_cons_of_mem _ listed, related⟩
        · obtain ⟨other, listed, facts⟩ := seed found
          exact ⟨other, List.mem_cons_of_mem _ listed, facts⟩
      simp only [pickSeed]
      split
      · exact goesOn branch (Or.inl rfl)
      · rename_i candidate
        simp only [Bool.or_eq_true, Bool.not_eq_true', not_or, Bool.not_eq_false] at candidate
        split
        · exact goesOn branch.explore (Or.inr rfl)
        · split
          · rename_i input known
            refine ⟨by simp [Branch.explore], ?_, fun found => ?_⟩
            · intro other member
              rcases List.mem_cons.mp member with rfl | later
              · exact ⟨branch, List.mem_cons_self, Or.inr rfl⟩
              · exact ⟨other, List.mem_cons_of_mem _ later, Or.inl rfl⟩
            · simp only [Option.some.injEq, Prod.mk.injEq] at found
              exact ⟨branch, List.mem_cons_self, candidate.1, found.2.2 ▸ known⟩
          · exact goesOn branch.explore (Or.inr rfl)

end Engine

end BranchSteer
