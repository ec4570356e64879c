import BranchSteer.Proofs.Ancestry
import BranchSteer.Proofs.Closure

/-!
The three questions about what a branch depends on have one answer, and it is all that matters: two runs of the
same events that start alike in it come to the branch with the same sources.
-/

namespace BranchSteer.Flow.Graph

variable {graph : Graph} {events : List Event} {writer : Nat → Option Nat} {event : Event}

theorem Lineage.mem_decisions (lineage : graph.Lineage events writer) (member : event ∈ events)
    (branch : event.instruction.isBranch) (edge : Edge) :
    edge ∈ graph.decisions[event.position]?.getD [] ↔
      edge ∈ graph.outgoingEdges edge.source ∧ edge.position = event.position := by
  rw [lineage.decides]
  apply and_congr_right
  intro _
  exact and_iff_left ⟨event, member, rfl, branch⟩

theorem mem_importsBehind (listed : graph.Listed) (rising : graph.Rising) (address position : Nat) :
    address ∈ graph.importsBehind position ↔ ∃ start, graph.importedAddress? start = some address ∧
      ∃ edge ∈ graph.decisions[position]?.getD [], graph.Reaches start edge.source := by
  simp only [importsBehind, Std.ExtTreeSet.mem_ofList, List.contains_iff_mem, List.mem_filterMap,
    Std.ExtTreeSet.mem_toList, listed.mem_ancestors, List.mem_map, exists_exists_and_eq_and,
    listed.along_iff_reaches rising]
  apply exists_congr
  intro start
  exact and_comm

theorem reachesBranch_iff_reaches (listed : graph.Listed) (rising : graph.Rising)
    (address position : Nat) : graph.reachesBranch address position ↔
      ∃ start, graph.inputImports[address]? = some start ∧
        ∃ edge ∈ graph.decisions[position]?.getD [], graph.Reaches start edge.target := by
  unfold reachesBranch
  cases found : graph.inputImports[address]? with
  | none => simp
  | some start =>
      simp only [List.any_eq_true, Std.ExtTreeSet.contains_iff_mem, listed.mem_reachable rising,
        Option.some.injEq, exists_eq_left']

theorem Lineage.mem_importsBehind_iff (lineage : graph.Lineage events writer)
    (listed : graph.Listed) (rising : graph.Rising) (member : event ∈ events)
    (branch : event.instruction.isBranch) (address : Nat) :
    address ∈ graph.importsBehind event.position ↔
      ∃ chain, (Usage.tracked events).Leads (.memory address) event.position chain := by
  have writes := Usage.writes_of_isBranch member branch
  rw [mem_importsBehind listed rising]
  constructor
  · rintro ⟨start, imported, edge, decides, reaches⟩
    obtain ⟨known, unwritten⟩ := lineage.importedAddress?_iff.mp imported
    obtain ⟨leaves, here⟩ := (lineage.mem_decisions member branch edge).mp decides
    obtain ⟨way, walk⟩ := reaches_iff_exists_walk.mp reaches
    exact ⟨_, (lineage.chain_iff known unwritten writes).mp
      ⟨edge.source, way, edge, walk, leaves, here, rfl⟩⟩
  · rintro ⟨chain, leads⟩
    obtain ⟨first, reads, fresh⟩ := leads.origin
    obtain ⟨start, known, unwritten⟩ := lineage.origin reads fresh
    obtain ⟨vertex, way, edge, walk, leaves, here, _⟩ :=
      (lineage.chain_iff known unwritten writes).mpr leads
    obtain ⟨rfl, _⟩ := rising leaves
    exact ⟨start, lineage.importedAddress?_iff.mpr ⟨known, unwritten⟩, edge,
      (lineage.mem_decisions member branch edge).mpr ⟨leaves, here⟩,
      reaches_iff_exists_walk.mpr ⟨way, walk⟩⟩

theorem Lineage.reachesBranch_iff (lineage : graph.Lineage events writer) (noted : graph.Noted)
    (listed : graph.Listed) (rising : graph.Rising) (member : event ∈ events)
    (branch : event.instruction.isBranch) (address : Nat) :
    graph.reachesBranch address event.position ↔ graph.input.contains address ∧
      ∃ chain, (Usage.tracked events).Leads (.memory address) event.position chain := by
  have writes := Usage.writes_of_isBranch member branch
  rw [reachesBranch_iff_reaches listed rising, ← lineage.exists_import_iff noted writes]
  apply exists_congr
  intro start
  apply and_congr_right
  intro found
  have imported := ((noted.noted address start).mp found).2
  obtain ⟨known, unwritten⟩ := lineage.importedAddress?_iff.mp imported
  constructor
  · rintro ⟨edge, decides, reaches⟩
    obtain ⟨leaves, here⟩ := (lineage.mem_decisions member branch edge).mp decides
    obtain ⟨way, walk⟩ := reaches_iff_exists_walk.mp reaches
    obtain ⟨_, _, wrote, _⟩ := (lineage.edge _ _).mp leaves
    rcases lineage.leads_of_walk known unwritten walk with ⟨same, _⟩ | ⟨position, same, leads⟩
    · rw [same, unwritten] at wrote
      simp at wrote
    · rw [wrote, Option.some.injEq, here] at same
      subst same
      exact ⟨way, (lineage.chain_iff known unwritten writes).mpr leads⟩
  · rintro ⟨_, vertex, way, edge, walk, leaves, here, _⟩
    obtain ⟨rfl, _⟩ := rising leaves
    exact ⟨edge, (lineage.mem_decisions member branch edge).mpr ⟨leaves, here⟩,
      reaches_iff_exists_walk.mpr ⟨_, walk.along leaves⟩⟩

/-- A byte is added to a record at a branch without any, if it reaches the branch, if it belongs to the input and
is an import behind the branch. -/
theorem queries_agree (input : InputBuffer) (inOrder : InOrder events) (member : event ∈ events)
    (branch : event.instruction.isBranch) {branches : Branches} {record : Branch}
    (known : branches[event.position]? = some record) (fresh : record.inputDependencies = ∅) :
    ∃ attributed credited, (ofEvents input events).attribution branches = .ok attributed ∧
      attributed[event.position]? = some credited ∧ ∀ address,
        (address ∈ credited.inputDependencies ↔
          (ofEvents input events).reachesBranch address event.position) ∧
        ((ofEvents input events).reachesBranch address event.position ↔
          input.contains address ∧ address ∈ (ofEvents input events).importsBehind event.position) := by
  obtain ⟨writer, lineage⟩ := ofEvents_lineage input inOrder
  have noted := ofEvents_noted input events
  have rising := ofEvents_rising input events
  have listed := ofEvents_listed input events
  obtain ⟨attributed, done, retold⟩ := attribution_collected rising noted.inside branches
  have there := retold.kept (Std.ExtTreeMap.mem_iff_isSome_getElem?.mpr (by rw [known]; rfl))
  have found := Std.ExtTreeMap.getElem?_eq_some_getElem there
  obtain ⟨old, same, collected⟩ := retold.origin found
  rw [known, Option.some.injEq] at same
  subst same
  refine ⟨attributed, _, done, found, ?_⟩
  intro address
  have reached := lineage.reachesBranch_iff noted listed rising member branch address
  constructor
  · rw [collected.dependency, or_iff_right (by simp [fresh]), reached,
      ← lineage.exists_import_iff noted (Usage.writes_of_isBranch member branch)]
    simp only [Std.ExtTreeMap.mem_toList_iff_getElem?_eq_some]
  · rw [reached, lineage.mem_importsBehind_iff listed rising member branch, ofEvents_input]

theorem queries_agree_comparison : ∃ attributed credited,
    (ofEvents ⟨16, 2⟩ comparisonEvents).attribution
      ((∅ : Branches).insert 2 (.create 0 104 2 false)) = .ok attributed ∧
    attributed[2]? = some credited ∧ 16 ∈ credited.inputDependencies ∧
    18 ∉ credited.inputDependencies := by
  have inOrder : InOrder comparisonEvents := by simp [InOrder, comparisonEvents]
  have member : comparisonEvents[1] ∈ comparisonEvents := List.getElem_mem _
  have known : ((∅ : Branches).insert 2 (.create 0 104 2 false))[comparisonEvents[1].position]? =
      some (.create 0 104 2 false) := Std.ExtTreeMap.getElem?_insert_self
  obtain ⟨attributed, credited, done, found, agree⟩ :=
    queries_agree ⟨16, 2⟩ inOrder member rfl known rfl
  refine ⟨attributed, credited, done, found, ?_, ?_⟩
  · rw [(agree 16).1]
    decide +kernel
  · rw [(agree 18).1]
    decide +kernel

section Values

variable {Value : Type} {effect : Event → (Operand → Value) → Operand → Value}
  {earlier later : List Event} {left right : Operand → Value}

/-- Whatever the events compute, two runs that start with the same registers and with the same bytes behind a
branch come to the branch with the same sources. -/
theorem branch_sources_agree (input : InputBuffer) (inOrder : InOrder (earlier ++ event :: later))
    (computes : ∀ other ∈ earlier ++ event :: later, other.Computes (effect other))
    (branch : event.instruction.isBranch)
    (registers : ∀ name, left (.register name) = right (.register name))
    (bytes : ∀ address ∈ (ofEvents input (earlier ++ event :: later)).importsBehind event.position,
      left (.memory address) = right (.memory address)) :
    ∀ source ∈ event.sources,
      valuesAfter effect earlier left source = valuesAfter effect earlier right source := by
  obtain ⟨writer, lineage⟩ := ofEvents_lineage input inOrder
  have rising := ofEvents_rising input (earlier ++ event :: later)
  have listed := ofEvents_listed input (earlier ++ event :: later)
  apply sources_agree inOrder computes registers earlier rfl
  intro address chain leads
  apply bytes
  rw [lineage.mem_importsBehind_iff listed rising (by simp) branch]
  exact ⟨chain, leads⟩

end Values

def sumOfSources (event : Event) (values : Operand → Nat) (operand : Operand) : Nat :=
  if operand ∈ event.destinations then (event.sources.toList.map values).foldl Nat.add 0
  else values operand

theorem computes_sumOfSources (event : Event) : event.Computes (sumOfSources event) := by
  constructor
  · intro values operand outside
    exact if_neg outside
  · intro left right agree operand inside
    rw [sumOfSources, sumOfSources, if_pos inside, if_pos inside]
    congr 1
    apply List.map_congr_left
    intro source member
    exact agree source (Std.ExtTreeSet.mem_toList.mp member)

theorem branch_sources_agree_comparison :
    20 ∉ (ofEvents ⟨16, 2⟩ comparisonEvents).importsBehind 2 ∧
    valuesAfter sumOfSources (comparisonEvents.take 1) (fun _ => 0) (.register "flags") =
      valuesAfter sumOfSources (comparisonEvents.take 1)
        (fun operand => if operand = .memory 20 then 1 else 0) (.register "flags") := by
  have outside : 20 ∉ (ofEvents ⟨16, 2⟩ comparisonEvents).importsBehind 2 := by decide +kernel
  have inOrder : InOrder (comparisonEvents.take 1 ++ comparisonEvents[1] :: []) := by
    simp [InOrder, comparisonEvents]
  refine ⟨outside, ?_⟩
  apply branch_sources_agree ⟨16, 2⟩ inOrder (fun other _ => computes_sumOfSources other) rfl
  · simp
  · intro address member
    have other : address ≠ 20 := by
      rintro rfl
      exact outside member
    simp [other]
  · decide +kernel

end BranchSteer.Flow.Graph
