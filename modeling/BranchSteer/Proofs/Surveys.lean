import BranchSteer.Proofs.Recording
import Mathlib.Data.List.Forall2

/-!
The survey at the end of a tainting phase, read backwards: each record behind it is an attributed one with
its candidates chosen, which are parts of its own bytes, and it was given up only at the end of the trace.
-/

namespace BranchSteer

theorem exists_getElem?_of_forall₂ {α β : Type} {relation : α → β → Prop} {olds : List α}
    {news : List β} (each : List.Forall₂ relation olds news) {index : Nat} {old : α}
    (found : olds[index]? = some old) : ∃ new, news[index]? = some new ∧ relation old new := by
  obtain ⟨bound, rfl⟩ := List.getElem?_eq_some_iff.mp found
  have there : index < news.length := each.length_eq ▸ bound
  exact ⟨news[index], List.getElem?_eq_getElem there, each.get bound there⟩

theorem exists_of_mem_forall₂ {α β : Type} {relation : α → β → Prop} {olds : List α} {news : List β}
    (each : List.Forall₂ relation olds news) {new : β} (member : new ∈ news) :
    ∃ old ∈ olds, relation old new := by
  obtain ⟨index, there, rfl⟩ := List.getElem_of_mem member
  have bound : index < olds.length := each.length_eq ▸ there
  exact ⟨olds[index], List.getElem_mem bound, each.get bound there⟩

theorem forall₂_of_mapM_eq_ok {α β : Type} {function : α → Except Fault β} {items : List α}
    {results : List β} (done : items.mapM function = .ok results) :
    List.Forall₂ (fun item result => function item = .ok result) items results := by
  induction items generalizing results with
  | nil =>
      simp only [List.mapM_nil, pure, Except.pure, Except.ok.injEq] at done
      exact done ▸ .nil
  | cons item rest ih =>
      rw [List.mapM_cons] at done
      cases first : function item with
      | error fault => simp [first, bind, Except.bind] at done
      | ok head =>
          cases others : rest.mapM function with
          | error fault => simp [first, others, bind, Except.bind] at done
          | ok tail =>
              simp only [first, others, bind, Except.bind, pure, Except.pure, Except.ok.injEq] at done
              subst done
              exact .cons first (ih others)

namespace Flow.Branches

theorem getElem?_insertMany {branches : Branches} {entries : List (Nat × Branch)} {position : Nat}
    {branch : Branch} (found : (branches.insertMany entries)[position]? = some branch) :
    branches[position]? = some branch ∨ (position, branch) ∈ entries := by
  induction entries generalizing branches with
  | nil => exact Or.inl (by simpa using found)
  | cons entry rest ih =>
      rw [Std.ExtTreeMap.insertMany_cons] at found
      rcases ih found with old | later
      · rw [Std.ExtTreeMap.getElem?_insert] at old
        split at old
        · rename_i same
          rw [Nat.compare_eq_eq] at same
          rw [Option.some.injEq] at old
          subst same old
          exact Or.inr List.mem_cons_self
        · exact Or.inl old
      · exact Or.inr (List.mem_cons_of_mem _ later)

theorem mem_of_branchesOf {records : List Branch} {position : Nat} {branch : Branch}
    (found : (Engine.branchesOf records)[position]? = some branch) :
    branch ∈ records ∧ branch.position = position := by
  rw [Engine.branchesOf, Std.ExtTreeMap.ofList_eq_insertMany_empty] at found
  rcases getElem?_insertMany found with impossible | member
  · simp at impossible
  · obtain ⟨record, listed, same⟩ := List.mem_map.mp member
    simp only [Prod.mk.injEq] at same
    obtain ⟨rfl, rfl⟩ := same
    exact ⟨listed, rfl⟩

end Flow.Branches

namespace Engine

/-- A record before the survey of a trace and behind it. -/
structure Surveyed (last : Nat) (old new : Branch) : Prop where
  kept : new = { old with
    isBypassed := new.isBypassed
    otherDependencies := new.otherDependencies
    candidates := new.candidates }
  bypassed : new.isBypassed → old.isBypassed ∨ last ≤ old.position
  part : ∀ {id : Nat} {bytes : Std.ExtTreeSet Nat}, new.candidates[id]? = some bytes →
    old.candidates[id]? = some bytes ∨
      bytes ≠ ∅ ∧ ∀ address ∈ bytes, address ∈ old.inputDependencies

variable {engine after : Engine} {old new : Branch}

theorem survey_surveyed {checkpoints : List Checkpoint}
    (done : engine.survey checkpoints old = .ok new) : Surveyed engine.position old new := by
  unfold survey at done
  split at done
  · rw [Except.ok.injEq] at done
    subst done
    exact ⟨rfl, Or.inl, Or.inl⟩
  · have spread := Branch.distribute_distributed old.inputDependencies ∅ 0 checkpoints (by simp)
    simp only [Branch.chooseCandidates] at done
    generalize Branch.distribute old.inputDependencies ∅ 0 checkpoints = result at done spread
    obtain ⟨left, candidates⟩ := result
    have part : ∀ {id : Nat} {bytes : Std.ExtTreeSet Nat}, candidates[id]? = some bytes →
        old.candidates[id]? = some bytes ∨
          bytes ≠ ∅ ∧ ∀ address ∈ bytes, address ∈ old.inputDependencies := by
      intro id bytes found
      rw [← Nat.zero_add id] at found
      obtain ⟨nonempty, members⟩ := spread.part found
      exact Or.inr ⟨nonempty, fun address member => ((members address).mp member).1⟩
    split at done
    · simp at done
    · rename_i selected latest chosen
      have shape : selected = { old with
          otherDependencies := (engine.graph.importsBehind old.position).filter fun address =>
            !engine.input.contains address
          candidates := candidates } := by
        split at chosen
        · simp at chosen
        · split at chosen
          · simp only [Prod.mk.injEq] at chosen
            exact chosen.1.symm
          · simp at chosen
      rw [Except.ok.injEq] at done
      subst done shape
      split
      · rename_i last
        unfold Branch.bypass
        split
        · exact ⟨rfl, Or.inl, part⟩
        · exact ⟨rfl, fun _ => Or.inr last, part⟩
      · exact ⟨rfl, Or.inl, part⟩

def FromSurvey (graph : Flow.Graph) (branches : Flow.Branches) (last position : Nat)
    (branch : Branch) : Prop :=
  ∃ attributed old, graph.attribution branches = .ok attributed ∧
    attributed[position]? = some old ∧ Surveyed last old branch

theorem Tainting.exists_survey {executions : List Execution} (tainting : engine.Tainting executions)
    (done : engine.surveyAll = .ok after) {position : Nat} {branch : Branch}
    (found : after.branches[position]? = some branch) :
    ∃ attributed old, engine.graph.attribution engine.branches = .ok attributed ∧
      attributed[position]? = some old ∧
      engine.survey engine.checkpoints.toList old = .ok branch := by
  obtain ⟨attributed, attribution, retold⟩ :=
    Flow.Graph.attribution_attributed tainting.follows engine.branches
  have keyed : Flow.Branches.Keyed attributed :=
    retold.keyed (fun position branch found => (tainting.branch found).1.key)
      fun attributes => by rw [attributes.1]
  simp only [Engine.surveyAll, attribution] at done
  split at done
  · simp at done
  · rename_i surveyed all
    rw [Except.ok.injEq] at done
    subst done
    obtain ⟨member, here⟩ := Flow.Branches.mem_of_branchesOf found
    obtain ⟨old, listed, same⟩ := exists_of_mem_forall₂ (forall₂_of_mapM_eq_ok all) member
    have place : old.position = position := by
      rw [(survey_surveyed same).kept] at here
      exact here
    exact ⟨attributed, old, attribution, place ▸ keyed.getElem?_of_mem listed, same⟩

theorem Tainting.fromSurvey {executions : List Execution} (tainting : engine.Tainting executions)
    (done : engine.surveyAll = .ok after) {position : Nat} {branch : Branch}
    (found : after.branches[position]? = some branch) :
    FromSurvey engine.graph engine.branches engine.position position branch := by
  obtain ⟨attributed, old, attribution, known, same⟩ := tainting.exists_survey done found
  exact ⟨attributed, old, attribution, known, survey_surveyed same⟩

theorem Tainting.attributed_of_fromSurvey {executions : List Execution}
    (tainting : engine.Tainting executions) {last position : Nat} {branch : Branch}
    (surveyed : FromSurvey engine.graph engine.branches last position branch) :
    ∃ attributed recorded old, engine.graph.attribution engine.branches = .ok attributed ∧
      engine.branches[position]? = some recorded ∧ attributed[position]? = some old ∧
      Flow.Attributes engine.graph.ImportedBy position recorded old ∧ Surveyed last old branch := by
  obtain ⟨attributed, old, done, found, becomes⟩ := surveyed
  obtain ⟨_, same, retold⟩ := Flow.Graph.attribution_attributed tainting.follows engine.branches
  rw [done, Except.ok.injEq] at same
  subst same
  obtain ⟨recorded, known, attributes⟩ := retold.origin found
  exact ⟨attributed, recorded, old, done, known, found, attributes, becomes⟩

end Engine

end BranchSteer
