import BranchSteer.Proofs.Ancestry
import Mathlib.Data.List.Nodup
import Mathlib.Order.Bounds.Basic

/-!
Where the vertices and the edges of a graph come from, at whatever positions its events lie. The versions of an
operand have their numbers in the order in which they were made, so that the import comes first and the current
one last. Each of the others was written by one event, and the edges to it come from what that event read.
-/

namespace BranchSteer.Flow.Graph

def allVersions (graph : Graph) (operand : Operand) : Set Nat :=
  {vertex | graph.operandOf? vertex = some operand}

/-- A vertex was made for an operand that was read before it had a version. -/
def Imports (graph : Graph) (operand : Operand) (vertex : Nat) : Prop :=
  ∃ sources, graph.vertices[vertex]? = some ⟨operand, true, sources⟩

def incoming (graph : Graph) (vertex : Nat) : List Edge :=
  graph.edges.toList.filter fun edge => edge.target = vertex

theorem mem_allVersions {graph : Graph} {operand : Operand} {vertex : Nat} :
    vertex ∈ graph.allVersions operand ↔ graph.operandOf? vertex = some operand := Iff.rfl

theorem mem_allVersions_addVertex (graph : Graph) (operand other : Operand) (imported : Bool)
    (sources : List Nat) (vertex : Nat) :
    vertex ∈ (graph.addVertex operand imported sources).allVersions other ↔
      vertex ∈ graph.allVersions other ∨ vertex = graph.vertices.size ∧ operand = other := by
  rw [mem_allVersions, mem_allVersions, operandOf?_addVertex]
  split
  · rename_i last
    have outside : graph.operandOf? vertex ≠ some other := by
      intro known
      have inside := lt_of_operandOf? known
      omega
    rw [Option.some.injEq, or_iff_right outside, and_iff_right last]
  · rename_i old
    rw [or_iff_left (fun new => old new.1)]

theorem existsUnique_current_iff (graph : Graph) (operand : Operand) :
    (∃! vertex, graph.current[operand]? = some vertex) ↔ operand ∈ graph.current := by
  rw [Std.ExtTreeMap.mem_iff_isSome_getElem?, Option.isSome_iff_exists]
  constructor
  · exact ExistsUnique.exists
  · rintro ⟨vertex, found⟩
    refine ⟨vertex, found, ?_⟩
    intro other foundToo
    rw [found, Option.some.injEq] at foundToo
    exact foundToo.symm

structure Chronological (graph : Graph) : Prop where
  current : ∀ operand vertex, graph.current[operand]? = some vertex ↔
    IsGreatest (graph.allVersions operand) vertex
  imported : ∀ {operand : Operand} {vertex : Nat} {sources : List Nat},
    graph.vertices[vertex]? = some ⟨operand, true, sources⟩ →
      sources = [] ∧ IsLeast (graph.allVersions operand) vertex

namespace Chronological

variable {graph : Graph} {operand other : Operand} {vertex : Nat}

theorem current_addVertex (chronological : graph.Chronological) (operand : Operand)
    (imported : Bool) (sources : List Nat) (other : Operand) (vertex : Nat) :
    (graph.addVertex operand imported sources).current[other]? = some vertex ↔
      IsGreatest ((graph.addVertex operand imported sources).allVersions other) vertex := by
  rw [addVertex_current]
  by_cases same : operand = other
  · subst same
    have newest : IsGreatest ((graph.addVertex operand imported sources).allVersions operand)
        graph.vertices.size := by
      refine ⟨(graph.mem_allVersions_addVertex _ _ _ _ _).mpr (Or.inr ⟨rfl, rfl⟩), ?_⟩
      intro version member
      rcases (graph.mem_allVersions_addVertex _ _ _ _ _).mp member with old | ⟨rfl, _⟩
      · exact Nat.le_of_lt (lt_of_operandOf? old)
      · exact Nat.le_refl _
    rw [if_pos rfl, Option.some.injEq]
    constructor
    · rintro rfl
      exact newest
    · exact newest.unique
  · have kept : (graph.addVertex operand imported sources).allVersions other =
        graph.allVersions other := by
      ext version
      rw [mem_allVersions_addVertex, or_iff_left (fun new => same new.2)]
    rw [if_neg same, kept]
    exact chronological.current other vertex

theorem isLeast_addVertex {imported : Bool} {sources : List Nat}
    (first : IsLeast (graph.allVersions other) vertex) :
    IsLeast ((graph.addVertex operand imported sources).allVersions other) vertex := by
  refine ⟨(graph.mem_allVersions_addVertex _ _ _ _ _).mpr (Or.inl first.1), ?_⟩
  intro version member
  rcases (graph.mem_allVersions_addVertex _ _ _ _ _).mp member with old | ⟨rfl, _⟩
  · exact first.2 old
  · exact Nat.le_of_lt (lt_of_operandOf? first.1)

theorem addVertex (chronological : graph.Chronological) (operand : Operand) (sources : List Nat) :
    (graph.addVertex operand false sources).Chronological := by
  refine ⟨chronological.current_addVertex operand false sources, ?_⟩
  intro other vertex found known
  simp only [Graph.addVertex, Array.getElem?_push] at known
  split at known
  · simp at known
  · obtain ⟨none, first⟩ := chronological.imported known
    exact ⟨none, isLeast_addVertex first⟩

theorem importVertex (chronological : graph.Chronological) (noted : graph.Noted)
    (unknown : operand ∉ graph.current) : (graph.addVertex operand true []).Chronological := by
  refine ⟨chronological.current_addVertex operand true [], ?_⟩
  intro other vertex sources known
  simp only [Graph.addVertex, Array.getElem?_push] at known
  split at known
  · rename_i last
    simp only [Option.some.injEq, Vertex.mk.injEq, true_and] at known
    obtain ⟨rfl, rfl⟩ := known
    refine ⟨rfl, (graph.mem_allVersions_addVertex _ _ _ _ _).mpr (Or.inr ⟨last, rfl⟩), ?_⟩
    intro version member
    rcases (graph.mem_allVersions_addVertex _ _ _ _ _).mp member with old | ⟨rfl, _⟩
    · -- An operand that has a vertex has a current version.
      exact absurd (noted.named old) unknown
    · exact Nat.le_of_eq last
  · obtain ⟨none, first⟩ := chronological.imported known
    exact ⟨none, isLeast_addVertex first⟩

theorem congr {more : Graph} (chronological : graph.Chronological)
    (vertices : more.vertices = graph.vertices) (current : more.current = graph.current) :
    more.Chronological := by
  have same : more.allVersions = graph.allVersions := by
    funext operand
    ext vertex
    rw [mem_allVersions, mem_allVersions, operandOf?, vertices, operandOf?]
  constructor
  · intro operand vertex
    rw [current, same]
    exact chronological.current operand vertex
  · intro operand vertex sources found
    rw [vertices] at found
    rw [same]
    exact chronological.imported found

theorem versionOf (chronological : graph.Chronological) (noted : graph.Noted) (operand : Operand) :
    (graph.versionOf operand).2.Chronological := by
  unfold Graph.versionOf
  split
  · exact chronological
  · rename_i missing
    have unknown : operand ∉ graph.current := by
      rw [Std.ExtTreeMap.mem_iff_isSome_getElem?, missing]
      simp
    exact (chronological.importVertex noted unknown).congr (Noted.noteImport_vertices _ _ _)
      (noteImport_frame _ _ _).1

theorem versionsOf (chronological : graph.Chronological) (noted : graph.Noted)
    (operands : List Operand) : (graph.versionsOf operands).2.Chronological := by
  induction operands generalizing graph with
  | nil => exact chronological
  | cons operand rest ih =>
      exact ih (chronological.versionOf noted operand) (noted.versionOf operand)

theorem addVersions (chronological : graph.Chronological) (sources : List Nat)
    (operands : List Operand) : (graph.addVersions sources operands).Chronological := by
  induction operands generalizing graph with
  | nil => exact chronological
  | cons operand rest ih => exact ih (chronological.addVertex operand sources)

theorem extend (chronological : graph.Chronological) (noted : graph.Noted) (event : Event) :
    (graph.extend event).Chronological := by
  obtain ⟨_, vertices, current, _⟩ :=
    graph.propagate_frame event.instruction event.execution event.position
  exact ((chronological.versionsOf noted _).addVersions _ _).congr vertices current

theorem imports_unique (chronological : graph.Chronological) (one : graph.Imports operand vertex)
    {second : Nat} (two : graph.Imports operand second) : vertex = second := by
  obtain ⟨_, found⟩ := one
  obtain ⟨_, foundToo⟩ := two
  exact (chronological.imported found).2.unique (chronological.imported foundToo).2

theorem first_of_imports (chronological : graph.Chronological) (listed : graph.Listed)
    (imports : graph.Imports operand vertex) :
    IsLeast (graph.allVersions operand) vertex ∧ graph.incoming vertex = [] := by
  obtain ⟨sources, found⟩ := imports
  obtain ⟨none, first⟩ := chronological.imported found
  refine ⟨first, ?_⟩
  have computed := listed.sources vertex
  rw [sourcesOf, found] at computed
  exact List.map_eq_nil_iff.mp (computed.symm.trans none)

end Chronological

theorem ofEvents_chronological (input : InputBuffer) (events : List Event) :
    (ofEvents input events).Chronological := by
  induction events using List.reverseRecOn with
  | nil =>
      constructor
      · intro operand vertex
        simp [ofEvents, empty, IsGreatest, mem_allVersions, operandOf?]
      · simp [ofEvents, empty]
  | append_singleton events event ih =>
      rw [ofEvents_concat]
      exact ih.extend (ofEvents_noted input events) event

def Mirrored (graph : Graph) : Prop :=
  ∀ vertex, graph.outgoingEdges vertex =
    (graph.edges.toList.filter fun edge => edge.source = vertex).reverse

theorem Mirrored.addEdge {graph : Graph} (mirrored : graph.Mirrored) (added : Edge) :
    (graph.addEdge added).Mirrored := by
  intro vertex
  have old := mirrored vertex
  simp only [outgoingEdges, Graph.addEdge, Std.ExtTreeMap.getElem?_insert, Nat.compare_eq_eq,
    Array.toList_push, List.filter_append, List.reverse_append] at old ⊢
  by_cases here : added.source = vertex
  · subst here
    simp [old]
  · simp [here, old]

theorem Mirrored.addEdges {graph : Graph} (mirrored : graph.Mirrored) (added : List Edge) :
    (added.foldl Graph.addEdge graph).Mirrored := by
  induction added generalizing graph with
  | nil => exact mirrored
  | cons edge rest ih => exact ih (mirrored.addEdge edge)

theorem Mirrored.extend {graph : Graph} (mirrored : graph.Mirrored) (event : Event) :
    (graph.extend event).Mirrored := by
  obtain ⟨imports, stages⟩ := graph.extend_stages event
  have written : (graph.written event.instruction event.execution).Mirrored := by
    intro vertex
    rw [outgoingEdges, stages.wrote.outgoing, stages.wrote.edges, stages.looked.outgoing,
      stages.looked.edges]
    exact mirrored vertex
  have all := written.addEdges
    (graph.addedEdges event.instruction event.execution event.position)
  change (if event.instruction.isBranch then _ else _ : Graph).Mirrored
  split
  · exact all
  · exact all

theorem ofEvents_mirrored (input : InputBuffer) (events : List Event) :
    (ofEvents input events).Mirrored := by
  induction events using List.reverseRecOn with
  | nil => simp [Mirrored, ofEvents, empty, outgoingEdges]
  | append_singleton events event ih =>
      rw [ofEvents_concat]
      exact ih.extend event

/-- The version that is current for an operand in front of an event. One without any is imported by the event,
before anything gets a new version. -/
def ReadAs (before after : Graph) (operand : Operand) (vertex : Nat) : Prop :=
  before.current[operand]? = some vertex ∨
    operand ∉ before.current ∧ after.Imports operand vertex

theorem Stages.readAs {before middle last after : Graph} {event : Event} {imports : List Vertex}
    {looked : List Nat} (stages : Stages before middle last after event imports looked)
    {operand : Operand} {vertex : Nat} (found : middle.current[operand]? = some vertex) :
    ReadAs before after operand vertex := by
  rcases (stages.current_middle operand vertex).mp found with old | ⟨above, inside, known⟩
  · exact Or.inl old
  · obtain ⟨made, _, unknown, shape⟩ := stages.extended.imported vertex above inside
    rw [operandOf?, shape, Option.map_some, Option.some.injEq] at known
    subst known
    exact Or.inr ⟨unknown, [], shape⟩

theorem extend_reads (graph : Graph) (event : Event) : ∃ middle looked,
    Extended graph (graph.extend event) event middle looked ∧
      List.Forall₂ (ReadAs graph (graph.extend event)) event.sources.toList looked := by
  obtain ⟨imports, stages⟩ := graph.extend_stages event
  refine ⟨_, _, stages.extended, ?_⟩
  exact (graph.versionsOf_each event.sources.toList).imp fun operand vertex => stages.readAs

namespace Extended

variable {before after : Graph} {event : Event} {middle vertex : Nat} {looked : List Nat}
  {operand : Operand}

theorem incoming_after (extended : Extended before after event middle looked)
    (inside : ∀ edge ∈ before.edges.toList, edge.target < before.vertices.size) (vertex : Nat) :
    after.incoming vertex = if vertex < before.vertices.size then before.incoming vertex
      else if middle ≤ vertex ∧ vertex < after.vertices.size then
        looked.map fun source => ⟨source, vertex, event.position⟩ else [] := by
  have lower := extended.lower
  rw [incoming, extended.edges, List.filter_append, edgesBetween_to,
    Nat.add_sub_cancel' extended.upper, ← incoming]
  rcases Nat.lt_or_ge vertex before.vertices.size with old | above
  · rw [if_pos old, if_neg (by omega), List.append_nil]
  · have none : before.incoming vertex = [] := by
      rw [incoming, List.filter_eq_nil_iff]
      intro edge member
      have below := inside edge member
      simp only [decide_eq_true_eq]
      omega
    rw [none, List.nil_append, if_neg (Nat.not_lt_of_le above)]

theorem imports_iff (extended : Extended before after event middle looked)
    (above : before.vertices.size ≤ vertex) (known : after.operandOf? vertex = some operand) :
    after.Imports operand vertex ↔ vertex < middle := by
  constructor
  · rintro ⟨sources, found⟩
    by_contra high
    obtain ⟨_, _, shape⟩ := extended.written vertex (Nat.le_of_not_lt high) (lt_of_operandOf? known)
    rw [found, Option.some.injEq, Vertex.mk.injEq] at shape
    exact Bool.noConfusion shape.2.1
  · intro low
    obtain ⟨imported, _, _, shape⟩ := extended.imported vertex above low
    rw [operandOf?, shape, Option.map_some, Option.some.injEq] at known
    exact ⟨[], known ▸ shape⟩

theorem operandOf?_of_readAs (extended : Extended before after event middle looked)
    (chronological : before.Chronological) (reads : ReadAs before after operand vertex) :
    after.operandOf? vertex = some operand := by
  rcases reads with old | ⟨_, sources, found⟩
  · have known : before.operandOf? vertex = some operand :=
      ((chronological.current operand vertex).mp old).1
    rw [extended.operandOf?_old (lt_of_operandOf? known), known]
  · rw [operandOf?, found, Option.map_some]

theorem nodup_of_readAs (extended : Extended before after event middle looked)
    (chronological : before.Chronological)
    (reads : List.Forall₂ (ReadAs before after) event.sources.toList looked) : looked.Nodup := by
  have named : looked.map after.operandOf? = event.sources.toList.map some := by
    rw [← List.forall₂_eq_eq_eq, List.forall₂_map_left_iff, List.forall₂_map_right_iff]
    exact (reads.imp fun operand vertex => extended.operandOf?_of_readAs chronological).flip
  have all : (looked.map after.operandOf?).Nodup :=
    named ▸ List.Nodup.map (Option.some_injective Operand) (nodup_operands event.sources)
  exact List.Nodup.of_map _ all

end Extended

def graphAt (input : InputBuffer) (events : List Event) (index : Nat) : Graph :=
  ofEvents input (events.take index)

def MadeAt (input : InputBuffer) (events : List Event) (vertex index : Nat) : Prop :=
  (graphAt input events index).vertices.size ≤ vertex ∧
    vertex < (graphAt input events (index + 1)).vertices.size

structure WrittenAt (input : InputBuffer) (events : List Event) (operand : Operand)
    (vertex index : Nat) (event : Event) : Prop where
  found : events[index]? = some event
  made : MadeAt input events vertex index
  once : ∀ other, MadeAt input events vertex other → other = index
  destination : operand ∈ event.destinations
  incoming : ∃ looked, List.Forall₂ (ReadAs (graphAt input events index)
      (graphAt input events (index + 1))) event.sources.toList looked ∧ looked.Nodup ∧
    (ofEvents input events).incoming vertex =
      looked.map fun source => ⟨source, vertex, event.position⟩

section Events

variable {input : InputBuffer} {events : List Event} {event : Event} {operand : Operand}
  {vertex index later : Nat}

theorem ofEvents_rises (input : InputBuffer) (events : List Event) :
    ∀ edge ∈ (ofEvents input events).edges.toList, edge.source < edge.target ∧
      edge.target < (ofEvents input events).vertices.size :=
  (ofEvents_listed input events).rises (ofEvents_rising input events)

theorem graphAt_length (input : InputBuffer) (events : List Event) :
    graphAt input events events.length = ofEvents input events := by
  rw [graphAt, List.take_length]

theorem graphAt_succ (found : events[index]? = some event) :
    graphAt input events (index + 1) = (graphAt input events index).extend event := by
  rw [graphAt, List.take_add_one, found, Option.toList_some, ofEvents_concat, graphAt]

theorem graphAt_incoming {middle : Nat} {looked : List Nat}
    (extended : Extended (graphAt input events index) (graphAt input events (index + 1)) event
      middle looked) (vertex : Nat) :
    (graphAt input events (index + 1)).incoming vertex =
      if vertex < (graphAt input events index).vertices.size then
        (graphAt input events index).incoming vertex
      else if middle ≤ vertex ∧ vertex < (graphAt input events (index + 1)).vertices.size then
        looked.map fun source => ⟨source, vertex, event.position⟩ else [] :=
  extended.incoming_after
    (fun edge member => (ofEvents_rises input (events.take index) edge member).2) vertex

theorem graphAt_kept (input : InputBuffer) (upTo : index ≤ later) :
    (graphAt input events index).vertices.size ≤ (graphAt input events later).vertices.size ∧
      ∀ vertex < (graphAt input events index).vertices.size,
        (graphAt input events later).vertices[vertex]? =
          (graphAt input events index).vertices[vertex]? ∧
        (graphAt input events later).incoming vertex =
          (graphAt input events index).incoming vertex := by
  induction later, upTo using Nat.le_induction with
  | base => exact ⟨Nat.le_refl _, fun _ _ => ⟨rfl, rfl⟩⟩
  | succ later _ ih =>
      obtain ⟨size, kept⟩ := ih
      cases found : events[later]? with
      | none =>
          have same : graphAt input events (later + 1) = graphAt input events later := by
            rw [graphAt, List.take_add_one, found, Option.toList_none, List.append_nil, graphAt]
          rw [same]
          exact ⟨size, kept⟩
      | some event =>
          obtain ⟨middle, looked, extended⟩ := extend_extended (graphAt input events later) event
          rw [← graphAt_succ found] at extended
          refine ⟨size.trans (extended.lower.trans extended.upper), ?_⟩
          intro vertex inside
          obtain ⟨shape, edges⟩ := kept vertex inside
          have old := Nat.lt_of_lt_of_le inside size
          refine ⟨(extended.old vertex old).trans shape, ?_⟩
          rw [graphAt_incoming extended, if_pos old, edges]

theorem exists_madeAt (inside : vertex < (graphAt input events later).vertices.size) :
    ∃ index < later, MadeAt input events vertex index := by
  induction later with
  | zero => simp [graphAt, ofEvents, empty] at inside
  | succ later ih =>
      rcases Nat.lt_or_ge vertex (graphAt input events later).vertices.size with old | above
      · obtain ⟨index, below, made⟩ := ih old
        exact ⟨index, Nat.lt_succ_of_lt below, made⟩
      · exact ⟨later, Nat.lt_succ_self later, above, inside⟩

theorem MadeAt.unique (one : MadeAt input events vertex index)
    (two : MadeAt input events vertex later) : later = index := by
  obtain ⟨above, below⟩ := one
  obtain ⟨aboveToo, belowToo⟩ := two
  rcases Nat.lt_trichotomy index later with less | same | more
  · have next : index + 1 ≤ later := less
    have size := (graphAt_kept input next).1.trans aboveToo
    omega
  · exact same.symm
  · have next : later + 1 ≤ index := more
    have size := (graphAt_kept input next).1.trans above
    omega

theorem MadeAt.kept (made : MadeAt input events vertex index) (below : index < events.length) :
    (ofEvents input events).vertices[vertex]? =
        (graphAt input events (index + 1)).vertices[vertex]? ∧
      (ofEvents input events).incoming vertex =
        (graphAt input events (index + 1)).incoming vertex := by
  have upTo : index + 1 ≤ events.length := below
  rw [← graphAt_length]
  exact (graphAt_kept input upTo).2 vertex made.2

theorem MadeAt.imports_iff (made : MadeAt input events vertex index)
    (found : events[index]? = some event) {middle : Nat} {looked : List Nat}
    (extended : Extended (graphAt input events index) (graphAt input events (index + 1)) event
      middle looked) (known : vertex ∈ (ofEvents input events).allVersions operand) :
    (graphAt input events (index + 1)).operandOf? vertex = some operand ∧
      ((ofEvents input events).Imports operand vertex ↔ vertex < middle) := by
  obtain ⟨shape, _⟩ := made.kept (List.getElem?_eq_some_iff.mp found).1
  rw [mem_allVersions, operandOf?, shape, ← operandOf?] at known
  refine ⟨known, ?_⟩
  rw [← extended.imports_iff made.1 known, Imports, shape, Imports]

theorem exists_writtenAt (known : vertex ∈ (ofEvents input events).allVersions operand)
    (other : ¬ (ofEvents input events).Imports operand vertex) :
    ∃ index event, WrittenAt input events operand vertex index event := by
  have inside := lt_of_operandOf? (mem_allVersions.mp known)
  rw [← graphAt_length] at inside
  obtain ⟨index, below, made⟩ := exists_madeAt inside
  have found : events[index]? = some events[index] := List.getElem?_eq_getElem below
  obtain ⟨middle, looked, extended, reads⟩ :=
    (graphAt input events index).extend_reads events[index]
  rw [← graphAt_succ found] at extended reads
  obtain ⟨named, imports⟩ := made.imports_iff found extended known
  rw [imports, Nat.not_lt] at other
  obtain ⟨written, destination, same⟩ := extended.operandOf?_new other made.2
  rw [named, Option.some.injEq] at same
  have chronological := ofEvents_chronological input (events.take index)
  refine ⟨index, events[index], found, made, fun _ => made.unique, same ▸ destination, looked, reads,
    extended.nodup_of_readAs chronological reads, ?_⟩
  rw [(made.kept below).2, graphAt_incoming extended, if_neg (Nat.not_lt_of_le made.1),
    if_pos ⟨other, made.2⟩]

theorem existsUnique_written (found : events[index]? = some event)
    (destination : operand ∈ event.destinations) : ∃! vertex, MadeAt input events vertex index ∧
      vertex ∈ (ofEvents input events).allVersions operand ∧
        ¬ (ofEvents input events).Imports operand vertex := by
  obtain ⟨middle, looked, extended⟩ := extend_extended (graphAt input events index) event
  rw [← graphAt_succ found] at extended
  obtain ⟨vertex, above, known⟩ := extended.writes operand destination
  have made : MadeAt input events vertex index :=
    ⟨extended.lower.trans above, lt_of_operandOf? known⟩
  have kept : vertex ∈ (ofEvents input events).allVersions operand := by
    rw [mem_allVersions, operandOf?, (made.kept (List.getElem?_eq_some_iff.mp found).1).1,
      ← operandOf?, known]
  refine ⟨vertex, ⟨made, kept, ?_⟩, ?_⟩
  · rw [(made.imports_iff found extended kept).2]
    exact Nat.not_lt_of_le above
  · rintro second ⟨madeToo, keptToo, other⟩
    obtain ⟨knownToo, imports⟩ := madeToo.imports_iff found extended keptToo
    rw [imports, Nat.not_lt] at other
    -- Both are the current version behind the event.
    have current := (extended.current operand vertex).mpr (Or.inl ⟨above, known⟩)
    have currentToo := (extended.current operand second).mpr (Or.inl ⟨other, knownToo⟩)
    rw [current, Option.some.injEq] at currentToo
    exact currentToo.symm

theorem mem_current_iff (input : InputBuffer) (events : List Event) (operand : Operand) :
    operand ∈ (ofEvents input events).current ↔
      ∃ event ∈ events, operand ∈ event.sources ∨ operand ∈ event.destinations := by
  induction events using List.reverseRecOn with
  | nil => simp [ofEvents, empty]
  | append_singleton events event ih =>
      obtain ⟨middle, looked, extended⟩ := extend_extended (ofEvents input events) event
      rw [ofEvents_concat, extended.mem_current, ih]
      simp only [List.mem_append, List.mem_singleton, or_and_right, exists_or, exists_eq_left]

end Events

/-- All edges lead upwards, and the lists of them at the vertices agree. What is bound to an operand is its last
version, and its import is the first one. All others were written, each by one event. -/
structure WellVersioned (input : InputBuffer) (events : List Event) : Prop where
  rising : ∀ edge ∈ (ofEvents input events).edges.toList, edge.source < edge.target ∧
    edge.target < (ofEvents input events).vertices.size
  acyclic : ∀ edge ∈ (ofEvents input events).edges.toList,
    ¬ Along (ofEvents input events).edges.toList edge.target edge.source
  outgoing : ∀ vertex, (ofEvents input events).outgoingEdges vertex =
    ((ofEvents input events).edges.toList.filter fun edge => edge.source = vertex).reverse
  sources : ∀ vertex, (ofEvents input events).sourcesOf vertex =
    ((ofEvents input events).incoming vertex).map Edge.source
  bound : ∀ operand, (∃ event ∈ events, operand ∈ event.sources ∨ operand ∈ event.destinations) ↔
    ∃! vertex, (ofEvents input events).current[operand]? = some vertex
  newest : ∀ operand vertex, (ofEvents input events).current[operand]? = some vertex ↔
    IsGreatest ((ofEvents input events).allVersions operand) vertex
  importedOnce : ∀ operand one other, (ofEvents input events).Imports operand one →
    (ofEvents input events).Imports operand other → one = other
  first : ∀ operand vertex, (ofEvents input events).Imports operand vertex →
    IsLeast ((ofEvents input events).allVersions operand) vertex ∧
      (ofEvents input events).incoming vertex = []
  written : ∀ operand, ∀ vertex ∈ (ofEvents input events).allVersions operand,
    ¬ (ofEvents input events).Imports operand vertex →
      ∃ index event, WrittenAt input events operand vertex index event
  writes : ∀ index event, events[index]? = some event → ∀ operand ∈ event.destinations,
    ∃! vertex, MadeAt input events vertex index ∧
      vertex ∈ (ofEvents input events).allVersions operand ∧
        ¬ (ofEvents input events).Imports operand vertex

/-- Whatever events are propagated, at whatever positions, their graph keeps its versions apart. -/
theorem ofEvents_wellVersioned (input : InputBuffer) (events : List Event) :
    WellVersioned input events where
  rising := ofEvents_rises input events
  acyclic _ member := Along.not_back (fun edge known => (ofEvents_rises input events edge known).1) member
  outgoing := ofEvents_mirrored input events
  sources := (ofEvents_listed input events).sources
  bound operand := by
    rw [existsUnique_current_iff, mem_current_iff]
  newest := (ofEvents_chronological input events).current
  importedOnce _ _ _ one other := (ofEvents_chronological input events).imports_unique one other
  first _ _ imports := (ofEvents_chronological input events).first_of_imports
    (ofEvents_listed input events) imports
  written _ _ := exists_writtenAt
  writes _ _ found _ := existsUnique_written found

example : (ofEvents ⟨16, 2⟩ (List.replicate 2
    ⟨((Instruction.plain 100 "add").reading ["a"]).writing ["a"], Execution.plain 100, 5⟩)).edges =
      #[⟨0, 1, 5⟩, ⟨1, 2, 5⟩] := by
  decide +kernel

end BranchSteer.Flow.Graph
