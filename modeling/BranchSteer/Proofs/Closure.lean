import BranchSteer.Proofs.Chains

/-!
Attribution computes the bytes of the input that reach a branch along chains of definitions and uses, and keeps
a shortest chain for each of them.
-/

namespace BranchSteer.Flow

structure FreshRecord (events : List Event) (position : Nat) (record : Branch) : Prop where
  dependencies : record.inputDependencies = ∅
  traces : record.traces = ∅
  branches : ∃ event ∈ events, event.position = position ∧ event.instruction.isBranch

theorem Usage.writes_of_isBranch {events : List Event} {event : Event} (member : event ∈ events)
    (branch : event.instruction.isBranch) :
    (tracked events).writes (.register instructionPointerName) event.position :=
  ⟨event, member, rfl, (Instruction.register_mem_destinations _ _ _).mpr (Or.inr ⟨branch, rfl⟩)⟩

namespace Graph

/-- The bytes that were attributed to a record are those that reach its branch, each by a shortest chain. -/
structure Closed (input : InputBuffer) (usage : Usage) (position : Nat) (old new : Branch) : Prop where
  frame : new = { old with inputDependencies := new.inputDependencies, traces := new.traces }
  dependency : ∀ address, address ∈ new.inputDependencies ↔ input.contains address ∧
    ∃ chain, usage.Leads (.memory address) position chain
  traced : ∀ address, address ∈ new.traces ↔ address ∈ new.inputDependencies
  trace : ∀ {address : Nat} {trace : List Nat}, new.traces[address]? = some trace →
    usage.Leads (.memory address) position trace ∧
      ∀ {chain : List Nat}, usage.Leads (.memory address) position chain →
        trace.length ≤ chain.length

theorem Collected.closed {graph : Graph} {events : List Event} {writer : Nat → Option Nat}
    (lineage : graph.Lineage events writer) (noted : graph.Noted) {position : Nat} {old new : Branch}
    (fresh : FreshRecord events position old)
    (collected : graph.Collected graph.inputImports.toList position old new) :
    Closed graph.input (Usage.tracked events) position old new := by
  obtain ⟨event, member, rfl, branch⟩ := fresh.branches
  have writes := Usage.writes_of_isBranch member branch
  have reached : ∀ address, (∃ start, (address, start) ∈ graph.inputImports.toList ∧
      ∃ trace, graph.Chain start event.position trace) ↔ graph.input.contains address ∧
        ∃ chain, (Usage.tracked events).Leads (.memory address) event.position chain := by
    intro address
    simp only [Std.ExtTreeMap.mem_toList_iff_getElem?_eq_some]
    exact lineage.exists_import_iff noted writes address
  have dependency := fun address => (collected.dependency address).trans
    (or_iff_right (by simp [fresh.dependencies]))
  have traced := fun address => (collected.traced address).trans
    (or_iff_right (by simp [fresh.traces]))
  refine ⟨collected.frame, fun address => (dependency address).trans (reached address),
    fun address => (traced address).trans (dependency address).symm, ?_⟩
  intro address trace found
  rcases collected.trace found with old | ⟨start, listed, chain, shortest⟩
  · simp [fresh.traces] at old
  · have imported := ((noted.noted address start).mp
      (Std.ExtTreeMap.mem_toList_iff_getElem?_eq_some.mp listed)).2
    obtain ⟨known, unwritten⟩ := lineage.importedAddress?_iff.mp imported
    have same : ∀ trace, graph.Chain start event.position trace ↔
        (Usage.tracked events).Leads (.memory address) event.position trace := fun _ =>
      lineage.chain_iff known unwritten writes
    exact ⟨(same trace).mp chain, fun leads => shortest _ ((same _).mpr leads)⟩

theorem Noted.inside {graph : Graph} (noted : graph.Noted) {address start : Nat}
    (found : graph.inputImports[address]? = some start) : start < graph.vertices.size :=
  lt_of_operandOf? (Noted.operandOf?_of_importedAddress? ((noted.noted address start).mp found).2)

theorem attribution_tracked (input : InputBuffer) {events : List Event} (inOrder : InOrder events)
    {branches : Branches} (fresh : ∀ {position : Nat} {record : Branch},
      branches[position]? = some record → FreshRecord events position record) :
    ∃ attributed, (ofEvents input events).attribution branches = .ok attributed ∧
      Branches.Retold (Closed input (Usage.tracked events)) branches attributed := by
  obtain ⟨writer, lineage⟩ := ofEvents_lineage input inOrder
  have noted := ofEvents_noted input events
  obtain ⟨attributed, done, retold⟩ :=
    attribution_collected (ofEvents_rising input events) noted.inside branches
  refine ⟨attributed, done, fun found => ?_, retold.kept⟩
  obtain ⟨old, known, collected⟩ := retold.origin found
  have closed := collected.closed lineage noted (fresh known)
  rw [ofEvents_input] at closed
  exact ⟨old, known, closed⟩

/-- Attribution never fails. It keeps the records that there are, and the bytes that it adds to them are those
of the input that reach their branches by what the events declare as read and written. -/
theorem attribution_closed (input : InputBuffer) {events : List Event} (inOrder : InOrder events)
    (stay : ∀ event ∈ events, event.execution.escapingAccess? = none) {branches : Branches}
    (fresh : ∀ {position : Nat} {record : Branch}, branches[position]? = some record →
      FreshRecord events position record) :
    ∃ attributed, (ofEvents input events).attribution branches = .ok attributed ∧
      Branches.Retold (Closed input (Usage.declared events)) branches attributed := by
  rw [Usage.declared_eq_tracked stay]
  exact attribution_tracked input inOrder fresh

theorem attribution_closed_comparison : ∃ attributed record,
    (ofEvents ⟨16, 2⟩ comparisonEvents).attribution
      ((∅ : Branches).insert 2 (.create 0 104 2 false)) = .ok attributed ∧
    attributed[2]? = some record ∧ 16 ∈ record.inputDependencies ∧
    ∃ trace, record.traces[16]? = some trace ∧ trace.length ≤ 2 := by
  have leads : (Usage.declared comparisonEvents).Leads (.memory 16) 2 [1, 2] := by
    have reads : (Usage.declared comparisonEvents).reads (.memory 16) 1 :=
      ⟨_, List.mem_cons_self, rfl, ⟨16, 2⟩, List.mem_cons_self, by decide⟩
    have writes : (Usage.declared comparisonEvents).writes (.register "flags") 1 :=
      ⟨_, List.mem_cons_self, rfl, Or.inl (by decide)⟩
    have uses : (Usage.declared comparisonEvents).reads (.register "flags") 2 :=
      ⟨_, List.mem_cons_of_mem _ List.mem_cons_self, rfl, show "flags" ∈ _ by decide⟩
    refine .next (.first reads ?_) (by decide) writes uses (by omega)
    rintro earlier below ⟨event, member, rfl, _⟩
    simp only [comparisonEvents, List.mem_cons, List.not_mem_nil, or_false] at member
    rcases member with rfl | rfl <;> simp at below
  have fresh : ∀ {position : Nat} {record : Branch},
      ((∅ : Branches).insert 2 (.create 0 104 2 false))[position]? = some record →
        FreshRecord comparisonEvents position record := by
    intro position record found
    simp only [Std.ExtTreeMap.getElem?_insert, Nat.compare_eq_eq] at found
    split at found
    · rename_i same
      subst same
      rw [Option.some.injEq] at found
      subst found
      exact ⟨rfl, rfl, by decide⟩
    · simp at found
  obtain ⟨attributed, done, retold⟩ := attribution_closed ⟨16, 2⟩
    (by simp [InOrder, comparisonEvents]) (by decide) fresh
  have known := retold.kept (Std.ExtTreeMap.mem_insert_self (k := 2))
  obtain ⟨old, _, closed⟩ := retold.origin (Std.ExtTreeMap.getElem?_eq_some_getElem known)
  have member := (closed.dependency 16).mpr ⟨by decide, [1, 2], leads⟩
  have traced := (closed.traced 16).mpr member
  have found := Std.ExtTreeMap.getElem?_eq_some_getElem traced
  exact ⟨attributed, attributed[2], done, Std.ExtTreeMap.getElem?_eq_some_getElem known, member,
    _, found, (closed.trace found).2 leads⟩

end Graph

end BranchSteer.Flow
