import BranchSteer.Proofs.Lineage
import BranchSteer.Proofs.Reachability

/-!
Ways along the edges of a graph are chains of events. An edge at a position leads to what its event wrote, from
a version that was in force for it, so the positions on a way from an import are those along which the imported
operand reaches the last one.
-/

namespace BranchSteer.Flow

theorem Usage.Leads.origin {usage : Usage} {origin : Operand} {position : Nat} {chain : List Nat}
    (leads : usage.Leads origin position chain) :
    ∃ first, usage.reads origin first ∧ ∀ earlier < first, ¬ usage.writes origin earlier := by
  induction leads with
  | @first position reads fresh => exact ⟨position, reads, fresh⟩
  | next _ _ _ _ _ ih => exact ih

namespace Graph

theorem ofEvents_bound (input : InputBuffer) (events : List Event) :
    Bound (ofEvents input events) := by
  induction events using List.reverseRecOn with
  | nil => simp [ofEvents, empty, Bound]
  | append_singleton events event ih =>
      rw [ofEvents_concat]
      exact (propagate_propagated ih event.instruction event.execution event.position).bound

theorem ofEvents_rising (input : InputBuffer) (events : List Event) :
    (ofEvents input events).Rising := by
  induction events using List.reverseRecOn with
  | nil => simp [ofEvents, empty, Rising, outgoingEdges]
  | append_singleton events event ih =>
      rw [ofEvents_concat]
      have added := propagate_propagated (ofEvents_bound input events) event.instruction
        event.execution event.position
      obtain ⟨middle, above, edges⟩ := added.edges
      have sizes := added.size
      intro vertex edge member
      rcases edges member with old | ⟨source, _, below, target, inside⟩
      · obtain ⟨source, up, inside⟩ := ih old
        exact ⟨source, up, Nat.lt_of_lt_of_le inside sizes⟩
      · exact ⟨source, by omega, inside⟩

namespace Lineage

variable {graph : Graph} {events : List Event} {writer : Nat → Option Nat} {start vertex : Nat}
  {origin : Operand} {position : Nat} {trace : List Nat}

theorem leads_of_walk (lineage : graph.Lineage events writer)
    (known : graph.operandOf? start = some origin) (unwritten : writer start = none)
    (walk : graph.Walk start vertex trace) : vertex = start ∧ trace = [] ∨
      ∃ position, writer vertex = some position ∧
        (Usage.tracked events).Leads origin position trace := by
  induction walk with
  | start => exact Or.inl ⟨rfl, rfl⟩
  | @along vertex edge trace walk member ih =>
      obtain ⟨_, _, written, operand, named, reads, force⟩ := (lineage.edge _ _).mp member
      refine Or.inr ⟨edge.position, written, ?_⟩
      rcases ih with ⟨rfl, rfl⟩ | ⟨before, wrote, leads⟩
      · rw [known, Option.some.injEq] at named
        rw [unwritten] at force
        subst named
        exact .first reads force
      · rw [wrote] at force
        obtain ⟨writes, below, last⟩ := force
        exact leads.next below writes reads last

theorem walk_of_leads (lineage : graph.Lineage events writer)
    (known : graph.operandOf? start = some origin) (unwritten : writer start = none)
    (leads : (Usage.tracked events).Leads origin position trace) {target : Nat}
    (inside : target < graph.vertices.size) (written : writer target = some position) :
    graph.Walk start target trace := by
  induction leads generalizing target with
  | @first position reads fresh =>
      have member : (⟨start, target, position⟩ : Edge) ∈ graph.outgoingEdges start := by
        rw [lineage.edge]
        exact ⟨rfl, inside, written, origin, known, reads, unwritten ▸ fresh⟩
      exact .along .start member
  | @next before position chain operand _ below writes reads last ih =>
      obtain ⟨vertex, named, wrote⟩ := lineage.version writes
      have walk := ih (lt_of_operandOf? named) wrote
      have member : (⟨vertex, target, position⟩ : Edge) ∈ graph.outgoingEdges vertex := by
        rw [lineage.edge, wrote]
        exact ⟨rfl, inside, written, operand, named, reads, writes, below, last⟩
      exact .along walk member

/-- At a position that writes anything, the ways from an import are the chains from its operand. -/
theorem chain_iff (lineage : graph.Lineage events writer)
    (known : graph.operandOf? start = some origin) (unwritten : writer start = none)
    {written : Operand} (writes : (Usage.tracked events).writes written position) :
    graph.Chain start position trace ↔ (Usage.tracked events).Leads origin position trace := by
  constructor
  · rintro ⟨vertex, way, edge, walk, member, rfl, rfl⟩
    rcases lineage.leads_of_walk known unwritten (walk.along member) with
      ⟨_, none⟩ | ⟨position, wrote, leads⟩
    · simp at none
    · obtain ⟨_, _, here, _⟩ := (lineage.edge _ _).mp member
      rw [here, Option.some.injEq] at wrote
      exact wrote ▸ leads
  · intro leads
    obtain ⟨target, named, wrote⟩ := lineage.version writes
    have walk := lineage.walk_of_leads known unwritten leads (lt_of_operandOf? named) wrote
    cases walk with
    | start => exact absurd rfl leads.ne_nil
    | @along vertex edge way walk member =>
        obtain ⟨_, _, here, _⟩ := (lineage.edge _ _).mp member
        rw [here, Option.some.injEq] at wrote
        exact ⟨vertex, way, edge, walk, member, wrote, by rw [wrote]⟩

theorem importedAddress?_iff (lineage : graph.Lineage events writer) {address : Nat} :
    graph.importedAddress? vertex = some address ↔
      graph.operandOf? vertex = some (.memory address) ∧ writer vertex = none := by
  unfold importedAddress? operandOf?
  cases found : graph.vertices[vertex]? with
  | none => simp
  | some made =>
      rw [← lineage.imported found]
      have byte : made.operand.address? = some address ↔ made.operand = .memory address := by
        cases made.operand <;> simp [Operand.address?]
      by_cases imported : made.imported
      · simp [imported, byte]
      · simp [imported]

theorem exists_import_iff (lineage : graph.Lineage events writer) (noted : graph.Noted)
    {written : Operand} (writes : (Usage.tracked events).writes written position) (address : Nat) :
    (∃ start, graph.inputImports[address]? = some start ∧ ∃ trace, graph.Chain start position trace) ↔
      graph.input.contains address ∧
        ∃ chain, (Usage.tracked events).Leads (.memory address) position chain := by
  constructor
  · rintro ⟨start, found, trace, chain⟩
    obtain ⟨inside, imported⟩ := (noted.noted address start).mp found
    obtain ⟨known, unwritten⟩ := lineage.importedAddress?_iff.mp imported
    exact ⟨inside, trace, (lineage.chain_iff known unwritten writes).mp chain⟩
  · rintro ⟨inside, chain, leads⟩
    obtain ⟨first, reads, fresh⟩ := leads.origin
    obtain ⟨start, known, unwritten⟩ := lineage.origin reads fresh
    have imported := lineage.importedAddress?_iff.mpr ⟨known, unwritten⟩
    exact ⟨start, (noted.noted address start).mpr ⟨inside, imported⟩, chain,
      (lineage.chain_iff known unwritten writes).mpr leads⟩

end Lineage

end Graph

end BranchSteer.Flow
