import BranchSteer.Proofs.Growth

/-!
Which event made which vertex. An import stands for what an operand held before any event wrote it; every other
vertex stands for what one event left in one operand. An edge leads to a version from those that were in force,
in front of its event, for what the event reads.
-/

namespace BranchSteer.Flow

namespace Usage

variable {events : List Event} {event : Event} {operand : Operand} {position limit : Nat}

theorem reads_concat : (tracked (events ++ [event])).reads operand position ↔
    (tracked events).reads operand position ∨ event.position = position ∧ operand ∈ event.sources := by
  simp only [tracked, List.mem_append, List.mem_singleton, or_and_right, exists_or, exists_eq_left]

theorem writes_concat : (tracked (events ++ [event])).writes operand position ↔
    (tracked events).writes operand position ∨
      event.position = position ∧ operand ∈ event.destinations := by
  simp only [tracked, List.mem_append, List.mem_singleton, or_and_right, exists_or, exists_eq_left]

theorem inForce_concat (upTo : limit ≤ event.position) (writer : Option Nat) :
    (tracked (events ++ [event])).InForce operand limit writer ↔
      (tracked events).InForce operand limit writer := by
  apply InForce.congr
  intro earlier below
  rw [writes_concat]
  constructor
  · rintro (old | ⟨here, _⟩)
    · exact old
    · omega
  · exact Or.inl

theorem not_reads_of_above (above : ∀ event ∈ events, event.position < limit)
    (beyond : limit ≤ position) : ¬ (tracked events).reads operand position := by
  rintro ⟨event, member, rfl, _⟩
  have below := above event member
  omega

theorem not_writes_of_above (above : ∀ event ∈ events, event.position < limit)
    (beyond : limit ≤ position) : ¬ (tracked events).writes operand position := by
  rintro ⟨event, member, rfl, _⟩
  have below := above event member
  omega

theorem inForce_behind (last : ∀ other ∈ events, other.position < event.position)
    (behind : event.position < limit) (writer : Option Nat) :
    (tracked (events ++ [event])).InForce operand limit writer ↔
      writer = some event.position ∧ operand ∈ event.destinations ∨
        operand ∉ event.destinations ∧
          (tracked events).InForce operand event.position writer := by
  have before : ∀ {position : Nat}, (tracked events).writes operand position →
      position < event.position := by
    intro position writes
    by_contra beyond
    exact not_writes_of_above last (Nat.le_of_not_lt beyond) writes
  cases writer with
  | none =>
      simp only [InForce, writes_concat, reduceCtorEq, false_and, false_or]
      constructor
      · intro never
        refine ⟨fun written => never event.position behind (Or.inr ⟨rfl, written⟩), ?_⟩
        intro earlier below writes
        exact never earlier (Nat.lt_trans below behind) (Or.inl writes)
      · rintro ⟨unwritten, never⟩ earlier _ (writes | ⟨_, written⟩)
        · exact never earlier (before writes) writes
        · exact unwritten written
  | some first =>
      simp only [InForce, writes_concat, Option.some.injEq]
      constructor
      · rintro ⟨writes, below, last⟩
        by_cases written : operand ∈ event.destinations
        · left
          refine ⟨?_, written⟩
          rcases writes with old | ⟨here, _⟩
          · exact absurd (Or.inr ⟨rfl, written⟩) (last event.position (before old) behind)
          · exact here.symm
        · right
          have old := writes.resolve_right fun new => written new.2
          refine ⟨written, old, before old, ?_⟩
          intro between above upper writes
          exact last between above (Nat.lt_trans upper behind) (Or.inl writes)
      · rintro (⟨rfl, written⟩ | ⟨unwritten, old, below, last⟩)
        · refine ⟨Or.inr ⟨rfl, written⟩, behind, ?_⟩
          rintro between above _ (writes | ⟨here, _⟩)
          · have order := before writes
            omega
          · omega
        · refine ⟨Or.inl old, Nat.lt_trans below behind, ?_⟩
          rintro between above _ (writes | ⟨_, written⟩)
          · exact last between above (before writes) writes
          · exact unwritten written

end Usage

namespace Graph

/-- The graph of some events. `writer` tells for each vertex at which position it was written, and nothing for
an import. -/
structure Lineage (graph : Graph) (events : List Event) (writer : Nat → Option Nat) : Prop where
  known : ∀ operand, operand ∈ graph.current ↔ ∃ position,
    (Usage.tracked events).reads operand position ∨ (Usage.tracked events).writes operand position
  imported : ∀ {vertex : Nat} {made : Vertex}, graph.vertices[vertex]? = some made →
    (made.imported ↔ writer vertex = none)
  written : ∀ {vertex position : Nat} {operand : Operand}, graph.operandOf? vertex = some operand →
    writer vertex = some position → (Usage.tracked events).writes operand position
  origin : ∀ {position : Nat} {operand : Operand}, (Usage.tracked events).reads operand position →
    (∀ earlier < position, ¬ (Usage.tracked events).writes operand earlier) →
      ∃ vertex, graph.operandOf? vertex = some operand ∧ writer vertex = none
  version : ∀ {position : Nat} {operand : Operand}, (Usage.tracked events).writes operand position →
    ∃ vertex, graph.operandOf? vertex = some operand ∧ writer vertex = some position
  current : ∀ {limit : Nat}, (∀ event ∈ events, event.position < limit) → ∀ operand vertex,
    graph.current[operand]? = some vertex ↔ graph.operandOf? vertex = some operand ∧
      (Usage.tracked events).InForce operand limit (writer vertex)
  edge : ∀ vertex edge, edge ∈ graph.outgoingEdges vertex ↔ edge.source = vertex ∧
    edge.target < graph.vertices.size ∧ writer edge.target = some edge.position ∧
      ∃ operand, graph.operandOf? vertex = some operand ∧
        (Usage.tracked events).reads operand edge.position ∧
        (Usage.tracked events).InForce operand edge.position (writer vertex)
  decides : ∀ position edge, edge ∈ graph.decisions[position]?.getD [] ↔
    edge ∈ graph.outgoingEdges edge.source ∧ edge.position = position ∧
      ∃ event ∈ events, event.position = position ∧ event.instruction.isBranch

theorem lineage_empty (input : InputBuffer) : (empty input).Lineage [] fun _ => none := by
  constructor <;> simp [empty, Usage.tracked, operandOf?, outgoingEdges]

theorem exists_operandOf? {graph : Graph} {vertex : Nat} (inside : vertex < graph.vertices.size) :
    ∃ operand, graph.operandOf? vertex = some operand := by
  rw [operandOf?, Array.getElem?_eq_getElem inside]
  exact ⟨_, rfl⟩

def writerBehind (writer : Nat → Option Nat) (size middle position : Nat) (vertex : Nat) :
    Option Nat :=
  if vertex < size then writer vertex else if vertex < middle then none else some position

namespace Extended

variable {before after : Graph} {event : Event} {middle : Nat} {versions : List Nat}

theorem operandOf?_old (extended : Extended before after event middle versions) {vertex : Nat}
    (inside : vertex < before.vertices.size) :
    after.operandOf? vertex = before.operandOf? vertex := by
  rw [operandOf?, extended.old vertex inside, operandOf?]

theorem operandOf?_import (extended : Extended before after event middle versions) {vertex : Nat}
    (above : before.vertices.size ≤ vertex) (inside : vertex < middle) :
    ∃ operand ∈ event.sources, operand ∉ before.current ∧
      after.operandOf? vertex = some operand := by
  obtain ⟨operand, source, unknown, found⟩ := extended.imported vertex above inside
  exact ⟨operand, source, unknown, by rw [operandOf?, found, Option.map_some]⟩

theorem operandOf?_new (extended : Extended before after event middle versions) {vertex : Nat}
    (above : middle ≤ vertex) (inside : vertex < after.vertices.size) :
    ∃ operand ∈ event.destinations, after.operandOf? vertex = some operand := by
  obtain ⟨operand, destination, found⟩ := extended.written vertex above inside
  exact ⟨operand, destination, by rw [operandOf?, found, Option.map_some]⟩

theorem mem_current (extended : Extended before after event middle versions) (operand : Operand) :
    operand ∈ after.current ↔
      operand ∈ before.current ∨ operand ∈ event.sources ∨ operand ∈ event.destinations := by
  rw [Std.ExtTreeMap.mem_iff_isSome_getElem?, Option.isSome_iff_exists]
  constructor
  · rintro ⟨vertex, found⟩
    rcases (extended.current operand vertex).mp found with
      ⟨above, known⟩ | ⟨_, found | ⟨above, inside, known⟩⟩
    · obtain ⟨other, destination, named⟩ := extended.operandOf?_new above (lt_of_operandOf? known)
      rw [known, Option.some.injEq] at named
      exact Or.inr (Or.inr (named ▸ destination))
    · exact Or.inl (Graph.mem_current found)
    · obtain ⟨other, source, _, named⟩ := extended.operandOf?_import above inside
      rw [known, Option.some.injEq] at named
      exact Or.inr (Or.inl (named ▸ source))
  · intro known
    by_cases written : operand ∈ event.destinations
    · obtain ⟨vertex, above, named⟩ := extended.writes operand written
      exact ⟨vertex, (extended.current operand vertex).mpr (Or.inl ⟨above, named⟩)⟩
    · have looked : operand ∈ before.current ∨ ∃ vertex, before.vertices.size ≤ vertex ∧
          vertex < middle ∧ after.operandOf? vertex = some operand := by
        rcases known with old | read | wrote
        · exact Or.inl old
        · exact extended.covered operand read
        · exact absurd wrote written
      rcases looked with old | ⟨vertex, new⟩
      · obtain ⟨vertex, found⟩ := Option.isSome_iff_exists.mp
          (Std.ExtTreeMap.mem_iff_isSome_getElem?.mp old)
        exact ⟨vertex, (extended.current operand vertex).mpr (Or.inr ⟨written, Or.inl found⟩)⟩
      · exact ⟨vertex, (extended.current operand vertex).mpr (Or.inr ⟨written, Or.inr new⟩)⟩

end Extended

variable {writer : Nat → Option Nat} {size middle position vertex : Nat}

theorem writerBehind_old (inside : vertex < size) :
    writerBehind writer size middle position vertex = writer vertex :=
  if_pos inside

theorem writerBehind_import (above : size ≤ vertex) (inside : vertex < middle) :
    writerBehind writer size middle position vertex = none := by
  rw [writerBehind, if_neg (by omega), if_pos inside]

theorem writerBehind_new (lower : size ≤ middle) (above : middle ≤ vertex) :
    writerBehind writer size middle position vertex = some position := by
  rw [writerBehind, if_neg (by omega), if_neg (by omega)]

namespace Lineage

variable {graph after : Graph} {events : List Event} {event : Event} {versions : List Nat}

theorem lt_of_written (lineage : graph.Lineage events writer)
    (last : ∀ other ∈ events, other.position < event.position) {operand : Operand}
    (known : graph.operandOf? vertex = some operand) (written : writer vertex = some position) :
    position < event.position := by
  by_contra beyond
  exact Usage.not_writes_of_above last (Nat.le_of_not_lt beyond) (lineage.written known written)

theorem not_written_of_unknown (lineage : graph.Lineage events writer) {operand : Operand}
    (unknown : operand ∉ graph.current) (position : Nat) :
    ¬ (Usage.tracked events).writes operand position :=
  fun writes => unknown ((lineage.known operand).mpr ⟨position, Or.inr writes⟩)

/-- What an event looks up is what is in force in front of it. -/
theorem inForce_iff (lineage : graph.Lineage events writer)
    (last : ∀ other ∈ events, other.position < event.position)
    (extended : Extended graph after event middle versions) (operand : Operand) (vertex : Nat) :
    (graph.current[operand]? = some vertex ∨
      graph.vertices.size ≤ vertex ∧ vertex < middle ∧ after.operandOf? vertex = some operand) ↔
    after.operandOf? vertex = some operand ∧ (Usage.tracked events).InForce operand event.position
      (writerBehind writer graph.vertices.size middle event.position vertex) := by
  have lower := extended.lower
  constructor
  · rintro (found | ⟨above, inside, known⟩)
    · obtain ⟨known, force⟩ := (lineage.current last operand vertex).mp found
      have old := lt_of_operandOf? known
      rw [extended.operandOf?_old old, writerBehind_old old]
      exact ⟨known, force⟩
    · obtain ⟨other, _, unknown, named⟩ := extended.operandOf?_import above inside
      rw [known, Option.some.injEq] at named
      subst named
      rw [writerBehind_import above inside]
      exact ⟨known, fun earlier _ => lineage.not_written_of_unknown unknown earlier⟩
  · rintro ⟨known, force⟩
    rcases Nat.lt_or_ge vertex graph.vertices.size with old | above
    · rw [extended.operandOf?_old old] at known
      rw [writerBehind_old old] at force
      exact Or.inl ((lineage.current last operand vertex).mpr ⟨known, force⟩)
    · rcases Nat.lt_or_ge vertex middle with inside | beyond
      · exact Or.inr ⟨above, inside, known⟩
      · rw [writerBehind_new lower beyond] at force
        exact absurd force.2.1 (Nat.lt_irrefl _)

theorem current_extend (lineage : graph.Lineage events writer)
    (last : ∀ other ∈ events, other.position < event.position)
    (extended : Extended graph after event middle versions) {limit : Nat}
    (behind : event.position < limit) (operand : Operand) (vertex : Nat) :
    after.current[operand]? = some vertex ↔ after.operandOf? vertex = some operand ∧
      (Usage.tracked (events ++ [event])).InForce operand limit
        (writerBehind writer graph.vertices.size middle event.position vertex) := by
  have lower := extended.lower
  rw [extended.current, lineage.inForce_iff last extended, Usage.inForce_behind last behind]
  constructor
  · rintro (⟨above, known⟩ | ⟨unwritten, known, force⟩)
    · obtain ⟨other, destination, named⟩ :=
        extended.operandOf?_new above (lt_of_operandOf? known)
      rw [known, Option.some.injEq] at named
      subst named
      exact ⟨known, Or.inl ⟨writerBehind_new lower above, destination⟩⟩
    · exact ⟨known, Or.inr ⟨unwritten, force⟩⟩
  · rintro ⟨known, ⟨written, _⟩ | ⟨unwritten, force⟩⟩
    · refine Or.inl ⟨?_, known⟩
      by_contra below
      rcases Nat.lt_or_ge vertex graph.vertices.size with old | above
      · rw [extended.operandOf?_old old] at known
        rw [writerBehind_old old] at written
        exact Nat.lt_irrefl _ (lineage.lt_of_written last known written)
      · rw [writerBehind_import above (by omega)] at written
        simp at written
    · exact Or.inr ⟨unwritten, known, force⟩

theorem reader_extend (lineage : graph.Lineage events writer)
    (extended : Extended graph after event middle versions) {position : Nat}
    (early : position < event.position) (operand : Operand) (vertex : Nat) :
    graph.operandOf? vertex = some operand ∧ (Usage.tracked events).reads operand position ∧
        (Usage.tracked events).InForce operand position (writer vertex) ↔
      after.operandOf? vertex = some operand ∧
        (Usage.tracked (events ++ [event])).reads operand position ∧
        (Usage.tracked (events ++ [event])).InForce operand position
          (writerBehind writer graph.vertices.size middle event.position vertex) := by
  have lower := extended.lower
  have reads : (Usage.tracked (events ++ [event])).reads operand position ↔
      (Usage.tracked events).reads operand position := by
    rw [Usage.reads_concat, or_iff_left]
    rintro ⟨here, _⟩
    omega
  rw [reads, Usage.inForce_concat (Nat.le_of_lt early)]
  rcases Nat.lt_or_ge vertex graph.vertices.size with old | above
  · rw [extended.operandOf?_old old, writerBehind_old old]
  · have outside : graph.operandOf? vertex ≠ some operand := by
      intro known
      have inside := lt_of_operandOf? known
      omega
    apply iff_of_false
    · exact fun known => outside known.1
    · rintro ⟨known, reads, force⟩
      rcases Nat.lt_or_ge vertex middle with inside | beyond
      · -- The event imports nothing that was read earlier.
        obtain ⟨other, _, unknown, named⟩ := extended.operandOf?_import above inside
        rw [known, Option.some.injEq] at named
        subst named
        exact unknown ((lineage.known _).mpr ⟨position, Or.inl reads⟩)
      · rw [writerBehind_new lower beyond] at force
        have order := force.2.1
        omega

theorem edge_extend (lineage : graph.Lineage events writer)
    (last : ∀ other ∈ events, other.position < event.position)
    (extended : Extended graph after event middle versions) (vertex : Nat) (edge : Edge) :
    edge ∈ after.outgoingEdges vertex ↔ edge.source = vertex ∧
      edge.target < after.vertices.size ∧
      writerBehind writer graph.vertices.size middle event.position edge.target =
        some edge.position ∧
      ∃ operand, after.operandOf? vertex = some operand ∧
        (Usage.tracked (events ++ [event])).reads operand edge.position ∧
        (Usage.tracked (events ++ [event])).InForce operand edge.position
          (writerBehind writer graph.vertices.size middle event.position vertex) := by
  have lower := extended.lower
  have upper := extended.upper
  rw [extended.outgoing, lineage.edge]
  rcases Nat.lt_or_ge edge.target middle with low | high
  · -- No new edge leads here, and the old ones lie in front of the event.
    rw [or_iff_left (fun new => by omega)]
    apply and_congr_right
    intro source
    rcases Nat.lt_or_ge edge.target graph.vertices.size with old | above
    · rw [writerBehind_old old]
      apply and_congr (iff_of_true old (by omega))
      apply and_congr_right
      intro written
      obtain ⟨operand, known⟩ := exists_operandOf? old
      have early := lineage.lt_of_written last known written
      exact exists_congr fun operand => lineage.reader_extend extended early operand vertex
    · rw [writerBehind_import above low]
      constructor
      · rintro ⟨inside, _⟩
        omega
      · rintro ⟨_, none, _⟩
        simp at none
  · -- The target is new, so that the edge is one of the event.
    rw [writerBehind_new lower high, Option.some.injEq]
    constructor
    · rintro (⟨_, inside, _⟩ | ⟨source, version, _, inside, position⟩)
      · omega
      · obtain ⟨operand, member, found⟩ := (extended.version vertex).mp version
        obtain ⟨known, force⟩ := (lineage.inForce_iff last extended operand vertex).mp found
        rw [position]
        exact ⟨source, inside, rfl, operand, known, Usage.reads_concat.mpr (Or.inr ⟨rfl, member⟩),
          (Usage.inForce_concat (Nat.le_refl _) _).mpr force⟩
    · rintro ⟨source, inside, position, operand, known, reads, force⟩
      rw [← position] at reads force
      have member := ((Usage.reads_concat.mp reads).resolve_left
        (Usage.not_reads_of_above last (Nat.le_refl _))).2
      rw [Usage.inForce_concat (Nat.le_refl _)] at force
      have found := (lineage.inForce_iff last extended operand vertex).mpr ⟨known, force⟩
      exact Or.inr ⟨source, (extended.version vertex).mpr ⟨operand, member, found⟩, high, inside,
        position.symm⟩

theorem known_extend (lineage : graph.Lineage events writer)
    (extended : Extended graph after event middle versions) (operand : Operand) :
    operand ∈ after.current ↔ ∃ position, (Usage.tracked (events ++ [event])).reads operand position ∨
      (Usage.tracked (events ++ [event])).writes operand position := by
  rw [extended.mem_current, lineage.known]
  simp only [Usage.reads_concat, Usage.writes_concat]
  constructor
  · rintro (⟨position, read | wrote⟩ | source | destination)
    · exact ⟨position, Or.inl (Or.inl read)⟩
    · exact ⟨position, Or.inr (Or.inl wrote)⟩
    · exact ⟨event.position, Or.inl (Or.inr ⟨rfl, source⟩)⟩
    · exact ⟨event.position, Or.inr (Or.inr ⟨rfl, destination⟩)⟩
  · rintro ⟨position, (read | ⟨_, source⟩) | (wrote | ⟨_, destination⟩)⟩
    · exact Or.inl ⟨position, Or.inl read⟩
    · exact Or.inr (Or.inl source)
    · exact Or.inl ⟨position, Or.inr wrote⟩
    · exact Or.inr (Or.inr destination)

theorem imported_extend (lineage : graph.Lineage events writer)
    (extended : Extended graph after event middle versions) {made : Vertex}
    (found : after.vertices[vertex]? = some made) : made.imported ↔
      writerBehind writer graph.vertices.size middle event.position vertex = none := by
  have lower := extended.lower
  have inside : vertex < after.vertices.size := (Array.getElem?_eq_some_iff.mp found).1
  rcases Nat.lt_or_ge vertex graph.vertices.size with old | above
  · rw [extended.old vertex old] at found
    rw [writerBehind_old old]
    exact lineage.imported found
  · rcases Nat.lt_or_ge vertex middle with low | high
    · obtain ⟨operand, _, _, shape⟩ := extended.imported vertex above low
      rw [found, Option.some.injEq] at shape
      rw [writerBehind_import above low, shape]
      exact iff_of_true rfl rfl
    · obtain ⟨operand, _, shape⟩ := extended.written vertex high inside
      rw [found, Option.some.injEq] at shape
      rw [writerBehind_new lower high, shape]
      simp

theorem written_extend (lineage : graph.Lineage events writer)
    (extended : Extended graph after event middle versions) {operand : Operand}
    (known : after.operandOf? vertex = some operand)
    (wrote : writerBehind writer graph.vertices.size middle event.position vertex = some position) :
    (Usage.tracked (events ++ [event])).writes operand position := by
  have lower := extended.lower
  rw [Usage.writes_concat]
  rcases Nat.lt_or_ge vertex graph.vertices.size with old | above
  · rw [extended.operandOf?_old old] at known
    rw [writerBehind_old old] at wrote
    exact Or.inl (lineage.written known wrote)
  · rcases Nat.lt_or_ge vertex middle with low | high
    · rw [writerBehind_import above low] at wrote
      simp at wrote
    · obtain ⟨other, destination, named⟩ := extended.operandOf?_new high (lt_of_operandOf? known)
      rw [known, Option.some.injEq] at named
      rw [writerBehind_new lower high, Option.some.injEq] at wrote
      exact Or.inr ⟨wrote, named ▸ destination⟩

theorem kept_extend (writer : Nat → Option Nat)
    (extended : Extended graph after event middle versions) {operand : Operand}
    (known : graph.operandOf? vertex = some operand) : after.operandOf? vertex = some operand ∧
      writerBehind writer graph.vertices.size middle event.position vertex = writer vertex := by
  have old := lt_of_operandOf? known
  rw [extended.operandOf?_old old]
  exact ⟨known, writerBehind_old old⟩

theorem origin_extend (lineage : graph.Lineage events writer)
    (last : ∀ other ∈ events, other.position < event.position)
    (extended : Extended graph after event middle versions) {operand : Operand}
    (reads : (Usage.tracked (events ++ [event])).reads operand position)
    (fresh : ∀ earlier < position, ¬ (Usage.tracked (events ++ [event])).writes operand earlier) :
    ∃ vertex, after.operandOf? vertex = some operand ∧
      writerBehind writer graph.vertices.size middle event.position vertex = none := by
  have lower := extended.lower
  have old : ∀ {vertex}, graph.operandOf? vertex = some operand → writer vertex = none →
      ∃ vertex, after.operandOf? vertex = some operand ∧
        writerBehind writer graph.vertices.size middle event.position vertex = none := by
    intro vertex known none
    obtain ⟨named, same⟩ := kept_extend writer extended known
    exact ⟨vertex, named, same.trans none⟩
  rcases Usage.reads_concat.mp reads with earlier | ⟨rfl, source⟩
  · obtain ⟨vertex, known, none⟩ := lineage.origin earlier fun before below writes =>
      fresh before below (Usage.writes_concat.mpr (Or.inl writes))
    exact old known none
  · rcases extended.covered operand source with current | ⟨vertex, above, inside, known⟩
    · -- What has a version that nothing wrote was imported.
      obtain ⟨vertex, found⟩ := Option.isSome_iff_exists.mp
        (Std.ExtTreeMap.mem_iff_isSome_getElem?.mp current)
      obtain ⟨known, force⟩ := (lineage.current last operand vertex).mp found
      cases wrote : writer vertex with
      | none => exact old known wrote
      | some first =>
          rw [wrote] at force
          exact absurd (Usage.writes_concat.mpr (Or.inl force.1)) (fresh first force.2.1)
    · exact ⟨vertex, known, writerBehind_import above inside⟩

theorem version_extend (lineage : graph.Lineage events writer)
    (extended : Extended graph after event middle versions) {operand : Operand}
    (writes : (Usage.tracked (events ++ [event])).writes operand position) :
    ∃ vertex, after.operandOf? vertex = some operand ∧
      writerBehind writer graph.vertices.size middle event.position vertex = some position := by
  rcases Usage.writes_concat.mp writes with old | ⟨rfl, destination⟩
  · obtain ⟨vertex, known, wrote⟩ := lineage.version old
    obtain ⟨named, same⟩ := kept_extend writer extended known
    exact ⟨vertex, named, same.trans wrote⟩
  · obtain ⟨vertex, above, named⟩ := extended.writes operand destination
    exact ⟨vertex, named, writerBehind_new extended.lower above⟩

theorem decides_extend (lineage : graph.Lineage events writer)
    (last : ∀ other ∈ events, other.position < event.position)
    (extended : Extended graph after event middle versions) (position : Nat) (edge : Edge) :
    edge ∈ after.decisions[position]?.getD [] ↔ edge ∈ after.outgoingEdges edge.source ∧
      edge.position = position ∧
      ∃ other ∈ events ++ [event], other.position = position ∧ other.instruction.isBranch := by
  have lower := extended.lower
  have upper := extended.upper
  have added := mem_edgesBetween_range upper versions event.position edge
  have early : edge ∈ graph.outgoingEdges edge.source → edge.position < event.position := by
    intro old
    obtain ⟨_, _, _, operand, _, reads, _⟩ := (lineage.edge _ _).mp old
    by_contra beyond
    exact Usage.not_reads_of_above last (Nat.le_of_not_lt beyond) reads
  rw [extended.decisions, List.mem_append, lineage.decides, extended.outgoing]
  simp only [List.mem_append, List.mem_singleton, or_and_right, exists_or, exists_eq_left]
  by_cases here : position = event.position
  · -- An old edge lies in front of the event.
    subst here
    have none : ¬ ∃ other ∈ events, other.position = event.position ∧ other.instruction.isBranch := by
      rintro ⟨other, member, same, _⟩
      have below := last other member
      omega
    have old : ¬ (edge ∈ graph.outgoingEdges edge.source ∧ edge.position = event.position) := by
      rintro ⟨known, same⟩
      have below := early known
      omega
    by_cases branch : event.instruction.isBranch
    · simp only [branch, and_self, if_true, added, none, and_false, false_or, true_and, and_true, old]
      exact ⟨fun new => ⟨new, new.2.2.2⟩, fun new => new.1⟩
    · simp [branch, none]
  · -- A new edge lies at the event.
    have other : ¬ event.position = position := Ne.symm here
    have new : ¬ (edge.position = event.position ∧ edge.position = position) := by
      rintro ⟨one, two⟩
      exact here (two.symm.trans one)
    simp only [here, other, and_false, false_and, if_false, List.not_mem_nil, or_false]
    constructor
    · exact Or.inl
    · rintro (old | ⟨⟨_, _, _, _, wrong⟩, position, _⟩)
      · exact old
      · exact absurd ⟨wrong, position⟩ new

theorem extend (lineage : graph.Lineage events writer)
    (last : ∀ other ∈ events, other.position < event.position)
    (extended : Extended graph after event middle versions) :
    after.Lineage (events ++ [event])
      (writerBehind writer graph.vertices.size middle event.position) where
  known := lineage.known_extend extended
  imported := lineage.imported_extend extended
  written := lineage.written_extend extended
  origin := lineage.origin_extend last extended
  version := lineage.version_extend extended
  current behind := lineage.current_extend last extended (behind event (by simp))
  edge := lineage.edge_extend last extended
  decides := lineage.decides_extend last extended

end Lineage

theorem ofEvents_lineage (input : InputBuffer) {events : List Event} (inOrder : InOrder events) :
    ∃ writer, (ofEvents input events).Lineage events writer := by
  induction events using List.reverseRecOn with
  | nil => exact ⟨_, lineage_empty input⟩
  | append_singleton events event ih =>
      obtain ⟨earlier, _, last⟩ := List.pairwise_append.mp inOrder
      obtain ⟨writer, lineage⟩ := ih earlier
      obtain ⟨middle, versions, extended⟩ := extend_extended (ofEvents input events) event
      rw [ofEvents_concat]
      exact ⟨_, lineage.extend (fun other member => last other member event (by simp)) extended⟩

theorem ofEvents_input (input : InputBuffer) (events : List Event) :
    (ofEvents input events).input = input := by
  induction events using List.reverseRecOn with
  | nil => rfl
  | append_singleton events event ih =>
      rw [ofEvents_concat]
      obtain ⟨_, _, extended⟩ := extend_extended (ofEvents input events) event
      exact extended.input.trans ih

theorem ofEvents_noted (input : InputBuffer) (events : List Event) :
    (ofEvents input events).Noted := by
  induction events using List.reverseRecOn with
  | nil => constructor <;> simp [ofEvents, empty, operandOf?, importedAddress?]
  | append_singleton events event ih =>
      rw [ofEvents_concat]
      exact ih.extend event

end Graph

end BranchSteer.Flow
