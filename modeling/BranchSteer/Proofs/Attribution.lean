import BranchSteer.Proofs.BranchRecords
import BranchSteer.Proofs.Layers
import Mathlib.Tactic.Choose

/-!
Attribution never loses a trace. A byte of the input is attributed to a branch exactly if there is a way from
its import to an edge of the branch, and the trace that is kept is a shortest one. In particular the byte was
imported before the branch.
-/

namespace BranchSteer.Flow

namespace Graph

def creditFirst (address : Nat) (edges : List Edge) (wayBack : Edge → List Nat) (position : Nat)
    (record : Branch) : Branch :=
  match edges.find? fun edge => edge.position = position with
  | some edge => record.dependOn address (wayBack edge)
  | none => record

theorem creditFirst_cons_self (address : Nat) (edge : Edge) (rest : List Edge)
    (wayBack : Edge → List Nat) (record : Branch) :
    creditFirst address (edge :: rest) wayBack edge.position record =
      record.dependOn address (wayBack edge) := by
  simp [creditFirst]

theorem creditFirst_cons_of_ne (address : Nat) {edge : Edge} (rest : List Edge)
    (wayBack : Edge → List Nat) {position : Nat} (other : edge.position ≠ position)
    (record : Branch) : creditFirst address (edge :: rest) wayBack position record =
      creditFirst address rest wayBack position record := by
  simp [creditFirst, other]

variable {graph : Graph} {search : Search} {address start : Nat}

theorem attributeScanned_credits (graph : Graph) {wayBack : Edge → List Nat} {edges : List Edge}
    (back : ∀ edge ∈ edges,
      search.traceBack address start (graph.vertices.size + 1) edge [] = .ok (wayBack edge))
    (skipped : Std.ExtTreeSet Nat) (branches : Branches) :
    ∃ after, graph.attributeScanned search address start edges skipped branches = .ok after ∧
      Branches.Retold (fun position old new => new =
        if position ∈ skipped then old else creditFirst address edges wayBack position old)
        branches after := by
  induction edges generalizing skipped branches with
  | nil =>
      refine ⟨branches, rfl, .refl ?_ branches⟩
      intro position record
      exact (ite_self record).symm
  | cons edge rest ih =>
      rw [List.forall_mem_cons] at back
      simp only [attributeScanned]
      split
      · rename_i known
        rw [Std.ExtTreeSet.contains_iff_mem] at known
        obtain ⟨after, done, retold⟩ := ih back.2 skipped branches
        refine ⟨after, done, fun {position _} found => ?_, retold.kept⟩
        obtain ⟨old, before, rfl⟩ := retold.origin found
        refine ⟨old, before, ?_⟩
        by_cases member : position ∈ skipped
        · rw [if_pos member, if_pos member]
        · have other : edge.position ≠ position := fun same => member (same ▸ known)
          rw [if_neg member, if_neg member, creditFirst_cons_of_ne address rest wayBack other]
      · rename_i unknown
        rw [Std.ExtTreeSet.contains_iff_mem] at unknown
        cases here : branches[edge.position]? with
        | none =>
            obtain ⟨after, done, retold⟩ := ih back.2 skipped branches
            refine ⟨after, done, fun {position _} found => ?_, retold.kept⟩
            obtain ⟨old, before, rfl⟩ := retold.origin found
            have other : edge.position ≠ position := by
              rintro rfl
              rw [here] at before
              simp at before
            exact ⟨old, before, by rw [creditFirst_cons_of_ne address rest wayBack other]⟩
        | some record =>
            simp only [back.1]
            obtain ⟨after, done, retold⟩ := ih back.2 (skipped.insert edge.position)
              (branches.insert edge.position (record.dependOn address (wayBack edge)))
            refine ⟨after, done, fun {position _} found => ?_, fun member =>
              retold.kept (Std.ExtTreeMap.mem_insert.mpr (Or.inr member))⟩
            obtain ⟨old, before, rfl⟩ := retold.origin found
            simp only [Std.ExtTreeMap.getElem?_insert, Std.ExtTreeSet.mem_insert,
              Nat.compare_eq_eq] at before ⊢
            by_cases same : edge.position = position
            · subst same
              rw [if_pos rfl, Option.some.injEq] at before
              refine ⟨record, here, ?_⟩
              rw [if_pos (Or.inl rfl), if_neg unknown, creditFirst_cons_self, before]
            · rw [if_neg same] at before
              refine ⟨old, before, ?_⟩
              rw [creditFirst_cons_of_ne address rest wayBack same]
              exact if_congr (or_iff_right same) rfl rfl

def Credited (graph : Graph) (address start position : Nat) (old new : Branch) : Prop :=
  (∃ trace, graph.Nearest start position trace ∧ new = old.dependOn address trace) ∨
    (∀ trace, ¬ graph.Chain start position trace) ∧ new = old

theorem credited_creditFirst (rising : graph.Rising) (finished : Search.Finished graph start search)
    {wayBack : Edge → List Nat}
    (shortest : ∀ edge ∈ search.scanned, ∃ way, graph.Walk start edge.source way ∧
      graph.Distance start edge.source way.length ∧ wayBack edge = way ++ [edge.position])
    (position : Nat) (record : Branch) : graph.Credited address start position record
      (creditFirst address search.scanned.reverse wayBack position record) := by
  unfold creditFirst
  cases first : search.scanned.reverse.find? fun edge => edge.position = position with
  | none =>
      refine Or.inr ⟨?_, rfl⟩
      rintro trace ⟨vertex, way, edge, walk, member, here, _⟩
      obtain ⟨rfl, _⟩ := rising member
      have listed := (finished.scanned edge).mpr ⟨member, way, walk⟩
      have other := List.find?_eq_none.mp first edge (List.mem_reverse.mpr listed)
      exact other (decide_eq_true here)
  | some edge =>
      obtain ⟨here, before, after, shape, failing⟩ := List.find?_eq_some_iff_append.mp first
      have here : edge.position = position := of_decide_eq_true here
      have listed : edge ∈ search.scanned := by
        rw [← List.mem_reverse, shape]
        simp
      obtain ⟨way, walk, distance, same⟩ := shortest edge listed
      have member := ((finished.scanned edge).mp listed).1
      refine Or.inl ⟨wayBack edge, ⟨⟨edge.source, way, edge, walk, member, here, here ▸ same⟩, ?_⟩, rfl⟩
      rintro _ ⟨vertex, rival, last, walkToo, leaves, there, rfl⟩
      obtain ⟨rfl, _⟩ := rising leaves
      obtain ⟨near, below, distanceToo⟩ := walkToo.exists_distance
      have listedToo := List.mem_reverse.mpr ((finished.scanned last).mpr ⟨leaves, rival, walkToo⟩)
      -- The edge comes first among those at its position, so it starts no farther than the other.
      have nearer : way.length ≤ near := by
        have sorted := List.pairwise_reverse.mpr finished.sorted
        rw [shape] at listedToo sorted
        rcases List.mem_append.mp listedToo with early | late
        · have wrong := failing last early
          simp [there] at wrong
        · rcases List.mem_cons.mp late with rfl | later
          · exact Nat.le_of_eq (distance.unique distanceToo)
          · exact (List.pairwise_cons.mp (List.pairwise_append.mp sorted).2.1).1 last later
              distanceToo distance
      rw [same, List.length_append, List.length_append, List.length_singleton, List.length_singleton]
      omega

theorem attributeScanned_credited (rising : graph.Rising) (inside : start < graph.vertices.size)
    (address : Nat) (branches : Branches) : ∃ after,
      graph.attributeScanned (Search.startingAt graph start) address start
        (Search.startingAt graph start).scanned.reverse ∅ branches = .ok after ∧
      Branches.Retold (graph.Credited address start) branches after := by
  have finished := Search.startingAt_finished rising inside
  have ways : ∀ edge, ∃ trace, edge ∈ (Search.startingAt graph start).scanned →
      (Search.startingAt graph start).traceBack address start (graph.vertices.size + 1) edge [] =
        .ok trace ∧ ∃ way, graph.Walk start edge.source way ∧
          graph.Distance start edge.source way.length ∧ trace = way ++ [edge.position] := by
    intro edge
    by_cases listed : edge ∈ (Search.startingAt graph start).scanned
    · obtain ⟨_, trace, walk⟩ := (finished.scanned edge).mp listed
      obtain ⟨near, _, distance⟩ := walk.exists_distance
      have below := distance.lt rising inside
      obtain ⟨way, walk, length, done⟩ :=
        Search.traceBack_shortest finished address [] distance (Nat.lt_succ_of_lt below)
      exact ⟨_, fun _ => ⟨done, way, walk, length ▸ distance, rfl⟩⟩
    · exact ⟨[], fun member => absurd member listed⟩
  choose wayBack back using ways
  obtain ⟨after, done, retold⟩ := attributeScanned_credits graph
    (fun edge member => (back edge (List.mem_reverse.mp member)).1) ∅ branches
  refine ⟨after, done, fun {position _} found => ?_, retold.kept⟩
  obtain ⟨old, before, rfl⟩ := retold.origin found
  rw [if_neg Std.ExtTreeSet.not_mem_empty]
  exact ⟨old, before, credited_creditFirst rising finished (fun edge member => (back edge member).2)
    position old⟩

/-- What bytes with their imports make of the record at a position. -/
structure Collected (graph : Graph) (imports : List (Nat × Nat)) (position : Nat)
    (old new : Branch) : Prop where
  frame : new = { old with inputDependencies := new.inputDependencies, traces := new.traces }
  dependency : ∀ address, address ∈ new.inputDependencies ↔ address ∈ old.inputDependencies ∨
    ∃ start, (address, start) ∈ imports ∧ ∃ trace, graph.Chain start position trace
  traced : ∀ address, address ∈ new.traces ↔ address ∈ old.traces ∨
    ∃ start, (address, start) ∈ imports ∧ ∃ trace, graph.Chain start position trace
  trace : ∀ {address : Nat} {trace : List Nat}, new.traces[address]? = some trace →
    old.traces[address]? = some trace ∨
      ∃ start, (address, start) ∈ imports ∧ graph.Nearest start position trace

theorem Collected.refl (graph : Graph) (position : Nat) (record : Branch) :
    graph.Collected [] position record record := by
  refine ⟨rfl, ?_, ?_, Or.inl⟩ <;> simp

theorem Credited.collected {position : Nat} {old new : Branch}
    (credited : graph.Credited address start position old new) :
    graph.Collected [(address, start)] position old new := by
  simp only [Credited] at credited
  rcases credited with ⟨trace, nearest, rfl⟩ | ⟨none, rfl⟩
  · have here : ∀ other, (∃ begin, (other, begin) ∈ [(address, start)] ∧
        ∃ trace, graph.Chain begin position trace) ↔ address = other := by
      intro other
      constructor
      · rintro ⟨begin, member, _⟩
        rw [List.mem_singleton, Prod.mk.injEq] at member
        exact member.1.symm
      · rintro rfl
        exact ⟨start, List.mem_singleton_self _, trace, nearest.1⟩
    refine ⟨rfl, ?_, ?_, ?_⟩
    · intro other
      rw [here]
      simp only [Branch.dependOn, Std.ExtTreeSet.mem_insert, Nat.compare_eq_eq]
      exact or_comm
    · intro other
      rw [here]
      simp only [Branch.dependOn, Std.ExtTreeMap.mem_insertIfNew, Nat.compare_eq_eq]
      exact or_comm
    · intro other kept found
      simp only [Branch.dependOn, Std.ExtTreeMap.getElem?_insertIfNew, Nat.compare_eq_eq] at found
      split at found
      · rename_i fresh
        obtain ⟨rfl, _⟩ := fresh
        rw [Option.some.injEq] at found
        exact Or.inr ⟨start, List.mem_singleton_self _, found ▸ nearest⟩
      · exact Or.inl found
  · have nothing : ∀ other, ¬ ∃ begin, (other, begin) ∈ [(address, start)] ∧
        ∃ trace, graph.Chain begin position trace := by
      rintro other ⟨begin, member, trace, chain⟩
      rw [List.mem_singleton, Prod.mk.injEq] at member
      exact none trace (member.2 ▸ chain)
    refine ⟨rfl, ?_, ?_, Or.inl⟩
    · intro other
      exact (or_iff_left (nothing other)).symm
    · intro other
      exact (or_iff_left (nothing other)).symm

theorem Collected.trans {first second : List (Nat × Nat)} {position : Nat} {old middle new : Branch}
    (one : graph.Collected first position old middle)
    (two : graph.Collected second position middle new) :
    graph.Collected (first ++ second) position old new := by
  have either : ∀ address, (∃ start, (address, start) ∈ first ++ second ∧
      ∃ trace, graph.Chain start position trace) ↔
        (∃ start, (address, start) ∈ first ∧ ∃ trace, graph.Chain start position trace) ∨
          ∃ start, (address, start) ∈ second ∧ ∃ trace, graph.Chain start position trace := by
    intro address
    simp only [List.mem_append, or_and_right, exists_or]
  refine ⟨by rw [two.frame, one.frame], ?_, ?_, ?_⟩
  · intro address
    rw [two.dependency, one.dependency, either, or_assoc]
  · intro address
    rw [two.traced, one.traced, either, or_assoc]
  · intro address trace found
    rcases two.trace found with early | ⟨start, listed, nearest⟩
    · rcases one.trace early with older | ⟨start, listed, nearest⟩
      · exact Or.inl older
      · exact Or.inr ⟨start, List.mem_append_left _ listed, nearest⟩
    · exact Or.inr ⟨start, List.mem_append_right _ listed, nearest⟩

theorem attributeInputs_collected (rising : graph.Rising) {imports : List (Nat × Nat)}
    (inside : ∀ entry ∈ imports, entry.2 < graph.vertices.size) (branches : Branches) :
    ∃ after, graph.attributeInputs imports branches = .ok after ∧
      Branches.Retold (graph.Collected imports) branches after := by
  induction imports generalizing branches with
  | nil => exact ⟨branches, rfl, .refl (Collected.refl graph) branches⟩
  | cons entry rest ih =>
      obtain ⟨address, start⟩ := entry
      rw [List.forall_mem_cons] at inside
      obtain ⟨middle, scanned, first⟩ :=
        attributeScanned_credited rising inside.1 address branches
      obtain ⟨after, done, others⟩ := ih inside.2 middle
      refine ⟨after, by simp only [attributeInputs, scanned, done], ?_⟩
      exact first.trans (fun one two => one.collected.trans two) others

/-- No trace is ever broken, and each byte is credited to the branches that there is a way to. -/
theorem attribution_collected (rising : graph.Rising)
    (inside : ∀ {address start : Nat}, graph.inputImports[address]? = some start →
      start < graph.vertices.size) (branches : Branches) :
    ∃ after, graph.attribution branches = .ok after ∧
      Branches.Retold (graph.Collected graph.inputImports.toList) branches after :=
  attributeInputs_collected rising
    (fun _ member => inside (Std.ExtTreeMap.mem_toList_iff_getElem?_eq_some.mp member)) branches

end Graph

def Attributes (condition : Nat → Nat → Prop) (position : Nat) (old new : Branch) : Prop :=
  new = { old with inputDependencies := new.inputDependencies, traces := new.traces } ∧
    ∀ address ∈ new.inputDependencies, address ∈ old.inputDependencies ∨ condition address position

namespace Graph

variable {graph : Graph} {base : Nat} {executions : List Execution}

def ImportedBy (graph : Graph) (address position : Nat) : Prop :=
  ∃ vertex, graph.inputImports[address]? = some vertex ∧
    ∀ {low : Nat}, (∀ edge ∈ graph.outgoingEdges vertex, low ≤ edge.position) → low ≤ position

theorem Walk.late (follows : graph.Follows base executions) {start vertex low : Nat} {trace : List Nat}
    (walk : graph.Walk start vertex trace) (first : ∀ edge ∈ graph.outgoingEdges start,
      low ≤ edge.position) : ∀ edge ∈ graph.outgoingEdges vertex, low ≤ edge.position := by
  induction walk with
  | start => exact first
  | @along _ before _ _ member ih =>
      intro edge next
      exact Nat.le_trans (ih before member) (follows.path member next)

theorem attribution_attributed (follows : graph.Follows base executions) (branches : Branches) :
    ∃ after, graph.attribution branches = .ok after ∧
      Branches.Retold (Attributes graph.ImportedBy) branches after := by
  obtain ⟨after, done, retold⟩ :=
    attribution_collected follows.rising (fun found => (follows.imports found).1) branches
  refine ⟨after, done, fun found => ?_, retold.kept⟩
  obtain ⟨old, before, collected⟩ := retold.origin found
  refine ⟨old, before, collected.frame, fun address member => ?_⟩
  apply ((collected.dependency address).mp member).imp id
  rintro ⟨start, listed, trace, vertex, way, edge, walk, leaves, rfl, _⟩
  refine ⟨start, Std.ExtTreeMap.mem_toList_iff_getElem?_eq_some.mp listed, fun first => ?_⟩
  exact walk.late follows first edge leaves

end Graph

end BranchSteer.Flow
