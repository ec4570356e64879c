import BranchSteer.Proofs.Usage
import Mathlib.Data.List.Forall2

/-!
How a graph grows by one event. Its vertices keep their numbers. Behind them come the imports of the operands
that are read without a version, and then the versions of the operands that are written, which become the
current ones.
-/

namespace BranchSteer.Flow.Graph

def extend (graph : Graph) (event : Event) : Graph :=
  graph.propagate event.instruction event.execution event.position

def ofEvents (input : InputBuffer) (events : List Event) : Graph :=
  events.foldl extend (empty input)

theorem ofEvents_concat (input : InputBuffer) (events : List Event) (event : Event) :
    ofEvents input (events ++ [event]) = (ofEvents input events).extend event := by
  rw [ofEvents, List.foldl_append, List.foldl_cons, List.foldl_nil]
  rfl

def operandOf? (graph : Graph) (vertex : Nat) : Option Operand :=
  graph.vertices[vertex]?.map (·.operand)

theorem lt_of_operandOf? {graph : Graph} {vertex : Nat} {operand : Operand}
    (known : graph.operandOf? vertex = some operand) : vertex < graph.vertices.size := by
  by_contra outside
  rw [operandOf?, Array.getElem?_eq_none (by omega)] at known
  simp at known

theorem importedAddress?_addVertex (graph : Graph) (operand : Operand) (imported : Bool)
    (sources : List Nat) (vertex : Nat) :
    (graph.addVertex operand imported sources).importedAddress? vertex =
      if vertex = graph.vertices.size then if imported then operand.address? else none
      else graph.importedAddress? vertex := by
  simp only [importedAddress?, addVertex, Array.getElem?_push]
  by_cases last : vertex = graph.vertices.size
  · rw [if_pos last, if_pos last]
  · rw [if_neg last, if_neg last]

theorem operandOf?_addVertex (graph : Graph) (operand : Operand) (imported : Bool)
    (sources : List Nat) (vertex : Nat) :
    (graph.addVertex operand imported sources).operandOf? vertex =
      if vertex = graph.vertices.size then some operand else graph.operandOf? vertex := by
  simp only [operandOf?, addVertex, Array.getElem?_push]
  split <;> rfl

structure Grown (before after : Graph) (added : List Vertex) : Prop where
  input : after.input = before.input
  edges : after.edges = before.edges
  outgoing : after.outgoing = before.outgoing
  decisions : after.decisions = before.decisions
  vertices : after.vertices.toList = before.vertices.toList ++ added
  current : ∀ operand vertex, after.current[operand]? = some vertex ↔
    before.vertices.size ≤ vertex ∧ after.operandOf? vertex = some operand ∨
      before.current[operand]? = some vertex ∧ ∀ made ∈ added, made.operand ≠ operand

namespace Grown

variable {before graph : Graph} {added : List Vertex}

theorem refl (graph : Graph) : Grown graph graph [] := by
  refine ⟨rfl, rfl, rfl, rfl, by simp, ?_⟩
  intro operand vertex
  constructor
  · intro found
    exact Or.inr ⟨found, by simp⟩
  · rintro (⟨above, known⟩ | ⟨found, _⟩)
    · exact absurd (lt_of_operandOf? known) (Nat.not_lt_of_le above)
    · exact found

theorem size (grown : Grown before graph added) :
    graph.vertices.size = before.vertices.size + added.length := by
  have lengths := congrArg List.length grown.vertices
  simpa using lengths

theorem getElem?_vertices (grown : Grown before graph added) (vertex : Nat) :
    graph.vertices[vertex]? = if vertex < before.vertices.size then before.vertices[vertex]?
      else added[vertex - before.vertices.size]? := by
  rw [← Array.getElem?_toList, grown.vertices, List.getElem?_append, Array.length_toList,
    Array.getElem?_toList]

theorem operandOf?_old (grown : Grown before graph added) {vertex : Nat}
    (inside : vertex < before.vertices.size) : graph.operandOf? vertex = before.operandOf? vertex := by
  rw [operandOf?, grown.getElem?_vertices, if_pos inside, operandOf?]

theorem exists_added (grown : Grown before graph added) {vertex : Nat}
    (above : before.vertices.size ≤ vertex) (inside : vertex < graph.vertices.size) :
    ∃ made ∈ added, graph.vertices[vertex]? = some made := by
  have size := grown.size
  have place : vertex - before.vertices.size < added.length := by omega
  refine ⟨added[vertex - before.vertices.size], List.getElem_mem place, ?_⟩
  rw [grown.getElem?_vertices, if_neg (by omega), List.getElem?_eq_getElem place]

theorem exists_of_added (grown : Grown before graph added) {made : Vertex} (member : made ∈ added) :
    ∃ vertex, before.vertices.size ≤ vertex ∧ graph.operandOf? vertex = some made.operand := by
  obtain ⟨place, found⟩ := List.getElem?_of_mem member
  refine ⟨before.vertices.size + place, by omega, ?_⟩
  rw [operandOf?, grown.getElem?_vertices, if_neg (by omega), Nat.add_sub_cancel_left, found,
    Option.map_some]

theorem mem_current (grown : Grown before graph added) {made : Vertex} (member : made ∈ added) :
    made.operand ∈ graph.current := by
  obtain ⟨vertex, added⟩ := grown.exists_of_added member
  exact Graph.mem_current ((grown.current _ _).mpr (Or.inl added))

theorem current_of_unknown (grown : Grown before graph added)
    (unknown : ∀ made ∈ added, made.operand ∉ before.current) (operand : Operand) (vertex : Nat) :
    graph.current[operand]? = some vertex ↔ before.current[operand]? = some vertex ∨
      before.vertices.size ≤ vertex ∧ vertex < graph.vertices.size ∧
        graph.operandOf? vertex = some operand := by
  rw [grown.current, or_comm]
  apply or_congr
  · apply and_iff_left_of_imp
    rintro found made member rfl
    exact unknown made member (Graph.mem_current found)
  · apply and_congr_right
    intro _
    rw [and_iff_right_of_imp lt_of_operandOf?]

theorem push (grown : Grown before graph added) (made : Vertex)
    (fresh : ∀ other ∈ added, other.operand ≠ made.operand) :
    Grown before (graph.addVertex made.operand made.imported made.sources) (added ++ [made]) := by
  have size := grown.size
  refine ⟨grown.input, grown.edges, grown.outgoing, grown.decisions, ?_, ?_⟩
  · rw [addVertex, Array.toList_push, grown.vertices, List.append_assoc]
  · intro operand vertex
    rw [addVertex_current, operandOf?_addVertex]
    simp only [List.forall_mem_append, List.forall_mem_singleton]
    by_cases same : made.operand = operand
    · rw [if_pos same, Option.some.injEq]
      constructor
      · rintro rfl
        exact Or.inl ⟨by omega, by rw [if_pos rfl, same]⟩
      · rintro (⟨above, known⟩ | ⟨_, _, other⟩)
        · by_contra different
          rw [if_neg (Ne.symm different)] at known
          obtain ⟨other, member, found⟩ := grown.exists_added above (lt_of_operandOf? known)
          rw [operandOf?, found, Option.map_some, Option.some.injEq] at known
          exact fresh other member (known.trans same.symm)
        · exact absurd same other
    · rw [if_neg same, grown.current]
      apply or_congr
      · apply and_congr_right
        intro above
        split
        · rename_i last
          have outside : graph.operandOf? vertex = none := by
            rw [operandOf?, Array.getElem?_eq_none (by omega), Option.map_none]
          rw [outside, Option.some.injEq]
          exact iff_of_false (by simp) same
        · rfl
      · rw [and_iff_left same]

end Grown

variable {before graph : Graph} {added : List Vertex}

theorem Grown.noteImport (grown : Grown before graph added) (operand : Operand) (vertex : Nat) :
    Grown before (graph.noteImport operand vertex) added := by
  unfold Graph.noteImport
  split
  · split
    · exact ⟨grown.input, grown.edges, grown.outgoing, grown.decisions, grown.vertices,
        grown.current⟩
    · exact grown
  · exact grown

theorem Grown.versionOf (grown : Grown before graph added) (operand : Operand) :
    ∃ more, Grown before (graph.versionOf operand).2 (added ++ more) ∧
      ∀ made ∈ more, made = ⟨operand, true, []⟩ ∧ operand ∉ graph.current := by
  unfold Graph.versionOf
  split
  · exact ⟨[], by simpa using grown, by simp⟩
  · rename_i missing
    have unknown : operand ∉ graph.current := by
      rw [Std.ExtTreeMap.mem_iff_isSome_getElem?, missing]
      simp
    refine ⟨[⟨operand, true, []⟩], (grown.push ⟨operand, true, []⟩ ?_).noteImport _ _, by simpa⟩
    intro other member same
    have named : other.operand = operand := same
    exact unknown (named ▸ grown.mem_current member)

theorem Grown.versionsOf (grown : Grown before graph added) (operands : List Operand) :
    ∃ more, Grown before (graph.versionsOf operands).2 (added ++ more) ∧ ∀ made ∈ more,
      ∃ operand ∈ operands, made = ⟨operand, true, []⟩ ∧ operand ∉ graph.current := by
  induction operands generalizing graph added with
  | nil => exact ⟨[], by simpa [Graph.versionsOf] using grown, by simp⟩
  | cons operand rest ih =>
      obtain ⟨first, grownFirst, imports⟩ := grown.versionOf operand
      obtain ⟨others, grownAll, importsToo⟩ := ih grownFirst
      refine ⟨first ++ others, by rw [← List.append_assoc]; exact grownAll, ?_⟩
      intro made member
      rcases List.mem_append.mp member with early | late
      · obtain ⟨shape, unknown⟩ := imports made early
        exact ⟨operand, List.mem_cons_self, shape, unknown⟩
      · obtain ⟨other, listed, shape, unknown⟩ := importsToo made late
        refine ⟨other, List.mem_cons_of_mem _ listed, shape, ?_⟩
        intro known
        obtain ⟨vertex, found⟩ := Option.isSome_iff_exists.mp
          (Std.ExtTreeMap.mem_iff_isSome_getElem?.mp known)
        exact unknown (Graph.mem_current ((graph.versionOf_looks operand).kept found))

theorem Grown.addVersions (grown : Grown before graph added) (sources : List Nat)
    {operands : List Operand} (distinct : operands.Nodup)
    (fresh : ∀ made ∈ added, made.operand ∉ operands) :
    Grown before (graph.addVersions sources operands)
      (added ++ operands.map fun operand => ⟨operand, false, sources⟩) := by
  induction operands generalizing graph added with
  | nil => simpa [Graph.addVersions] using grown
  | cons operand rest ih =>
      rw [List.nodup_cons] at distinct
      have first := grown.push ⟨operand, false, sources⟩ fun other member same =>
        fresh other member (same ▸ List.mem_cons_self)
      have all := ih first distinct.2 (by
        intro made member
        rcases List.mem_append.mp member with old | new
        · exact fun listed => fresh made old (List.mem_cons_of_mem _ listed)
        · rw [List.mem_singleton.mp new]
          exact distinct.1)
      rw [List.append_assoc] at all
      exact all

theorem nodup_operands (operands : Std.ExtTreeSet Operand) : operands.toList.Nodup :=
  Std.ExtTreeSet.distinct_toList.imp fun different same =>
    different (Std.LawfulEqOrd.compare_eq_iff_eq.mpr same)

theorem versionsOf_each (graph : Graph) (operands : List Operand) :
    List.Forall₂ (fun operand vertex =>
      (graph.versionsOf operands).2.current[operand]? = some vertex)
        operands (graph.versionsOf operands).1 := by
  induction operands generalizing graph with
  | nil => exact .nil
  | cons operand rest ih =>
      obtain ⟨version, listed, found, _⟩ :=
        (graph.versionOf_looks operand).source operand List.mem_cons_self
      rw [List.mem_singleton] at listed
      subst listed
      exact .cons (((graph.versionOf operand).2.versionsOf_looks rest).kept found) (ih _)

theorem exists_of_mem_versionsOf (graph : Graph) (operands : List Operand) :
    ∀ vertex ∈ (graph.versionsOf operands).1, ∃ operand ∈ operands,
      (graph.versionsOf operands).2.current[operand]? = some vertex := by
  intro vertex member
  obtain ⟨place, inside, rfl⟩ := List.getElem_of_mem member
  have each := graph.versionsOf_each operands
  have listed : place < operands.length := each.length_eq ▸ inside
  exact ⟨operands[place], List.getElem_mem listed, each.get listed inside⟩

theorem addEdges_edges (graph : Graph) (added : List Edge) :
    (added.foldl addEdge graph).edges.toList = graph.edges.toList ++ added ∧
      (added.foldl addEdge graph).decisions = graph.decisions := by
  induction added generalizing graph with
  | nil => simp
  | cons edge rest ih =>
      obtain ⟨edges, decisions⟩ := ih (graph.addEdge edge)
      rw [List.foldl_cons]
      refine ⟨edges.trans ?_, decisions⟩
      rw [addEdge, Array.toList_push, List.append_assoc, List.singleton_append]

theorem mem_edgesBetween_range {first last : Nat} (upper : first ≤ last) (versions : List Nat)
    (position : Nat) (edge : Edge) :
    edge ∈ edgesBetween versions (List.range' first (last - first)) position ↔
      edge.source ∈ versions ∧ first ≤ edge.target ∧ edge.target < last ∧
        edge.position = position := by
  rw [mem_edgesBetween, List.mem_range'_1, Nat.add_sub_cancel' upper, and_assoc]

/-- The graph behind an event. The vertices up to `middle` are imports, those from there on are the versions
that the event writes, and `versions` are those that it reads. -/
structure Extended (before after : Graph) (event : Event) (middle : Nat) (versions : List Nat) :
    Prop where
  input : after.input = before.input
  lower : before.vertices.size ≤ middle
  upper : middle ≤ after.vertices.size
  old : ∀ vertex < before.vertices.size, after.vertices[vertex]? = before.vertices[vertex]?
  imported : ∀ vertex, before.vertices.size ≤ vertex → vertex < middle →
    ∃ operand ∈ event.sources, operand ∉ before.current ∧
      after.vertices[vertex]? = some ⟨operand, true, []⟩
  written : ∀ vertex, middle ≤ vertex → vertex < after.vertices.size →
    ∃ operand ∈ event.destinations, after.vertices[vertex]? = some ⟨operand, false, versions⟩
  covered : ∀ operand ∈ event.sources, operand ∈ before.current ∨ ∃ vertex,
    before.vertices.size ≤ vertex ∧ vertex < middle ∧ after.operandOf? vertex = some operand
  version : ∀ vertex, vertex ∈ versions ↔ ∃ operand ∈ event.sources,
    before.current[operand]? = some vertex ∨
      before.vertices.size ≤ vertex ∧ vertex < middle ∧ after.operandOf? vertex = some operand
  writes : ∀ operand ∈ event.destinations, ∃ vertex, middle ≤ vertex ∧
    after.operandOf? vertex = some operand
  current : ∀ operand vertex, after.current[operand]? = some vertex ↔
    middle ≤ vertex ∧ after.operandOf? vertex = some operand ∨
      operand ∉ event.destinations ∧ (before.current[operand]? = some vertex ∨
        before.vertices.size ≤ vertex ∧ vertex < middle ∧ after.operandOf? vertex = some operand)
  edges : after.edges.toList = before.edges.toList ++ edgesBetween versions
    (List.range' middle (after.vertices.size - middle)) event.position
  outgoing : ∀ vertex edge, edge ∈ after.outgoingEdges vertex ↔
    edge ∈ before.outgoingEdges vertex ∨ edge.source = vertex ∧ vertex ∈ versions ∧
      middle ≤ edge.target ∧ edge.target < after.vertices.size ∧ edge.position = event.position
  decisions : ∀ position, after.decisions[position]?.getD [] =
    before.decisions[position]?.getD [] ++
      if event.instruction.isBranch ∧ position = event.position then edgesBetween versions
        (List.range' middle (after.vertices.size - middle)) event.position else []

theorem extend_edges (graph : Graph) (event : Event) :
    (graph.extend event).edges.toList = (graph.written event.instruction event.execution).edges.toList ++
        graph.addedEdges event.instruction event.execution event.position ∧
      ∀ position, (graph.extend event).decisions[position]?.getD [] =
        (graph.written event.instruction event.execution).decisions[position]?.getD [] ++
          if event.instruction.isBranch ∧ position = event.position then
            graph.addedEdges event.instruction event.execution event.position
          else [] := by
  obtain ⟨edges, decisions⟩ := addEdges_edges (graph.written event.instruction event.execution)
    (graph.addedEdges event.instruction event.execution event.position)
  have shape : graph.extend event =
      if event.instruction.isBranch then
        ((graph.addedEdges event.instruction event.execution event.position).foldl addEdge
          (graph.written event.instruction event.execution)).noteBranch event.position
            (graph.addedEdges event.instruction event.execution event.position)
      else (graph.addedEdges event.instruction event.execution event.position).foldl addEdge
        (graph.written event.instruction event.execution) := rfl
  rw [shape]
  by_cases branch : event.instruction.isBranch
  · rw [if_pos branch]
    refine ⟨edges, ?_⟩
    intro position
    simp only [noteBranch, decisions, Std.ExtTreeMap.getElem?_insert, Nat.compare_eq_eq, branch,
      true_and]
    by_cases here : position = event.position
    · subst here
      simp
    · simp [here, Ne.symm here]
  · rw [if_neg branch]
    refine ⟨edges, ?_⟩
    intro position
    simp [branch, decisions]

/-- The graphs that an event goes through: behind the look-ups of what it reads, behind the new versions of
what it writes, and behind its edges. -/
structure Stages (graph middle last after : Graph) (event : Event) (imports : List Vertex)
    (versions : List Nat) : Prop where
  looked : Grown graph middle imports
  origin : ∀ made ∈ imports, ∃ operand ∈ event.sources,
    made = ⟨operand, true, []⟩ ∧ operand ∉ graph.current
  source : ∀ operand ∈ event.sources, ∃ vertex ∈ versions, middle.current[operand]? = some vertex
  listed : ∀ vertex ∈ versions, ∃ operand ∈ event.sources, middle.current[operand]? = some vertex
  wrote : Grown middle last (event.destinations.toList.map fun operand => ⟨operand, false, versions⟩)
  input : after.input = last.input
  vertices : after.vertices = last.vertices
  current : after.current = last.current
  outgoing : ∀ vertex edge, edge ∈ after.outgoingEdges vertex ↔ edge ∈ last.outgoingEdges vertex ∨
    edge ∈ edgesBetween versions (last.newest event.destinations.toList.length) event.position ∧
      edge.source = vertex
  edges : after.edges.toList = last.edges.toList ++
    edgesBetween versions (last.newest event.destinations.toList.length) event.position
  decisions : ∀ position, after.decisions[position]?.getD [] = last.decisions[position]?.getD [] ++
    if event.instruction.isBranch ∧ position = event.position then
      edgesBetween versions (last.newest event.destinations.toList.length) event.position
    else []

theorem extend_stages (graph : Graph) (event : Event) : ∃ imports,
    Stages graph (graph.versionsOf event.sources.toList).2
      (graph.written event.instruction event.execution) (graph.extend event) event imports
      (graph.versionsOf event.sources.toList).1 := by
  obtain ⟨imports, looked, origin⟩ := (Grown.refl graph).versionsOf event.sources.toList
  have looks := graph.versionsOf_looks event.sources.toList
  have listed := graph.exists_of_mem_versionsOf event.sources.toList
  have wrote := (Grown.refl (graph.versionsOf event.sources.toList).2).addVersions
    (graph.versionsOf event.sources.toList).1 (nodup_operands event.destinations) (by simp)
  obtain ⟨edges, decisions⟩ := graph.extend_edges event
  obtain ⟨input, vertices, current, _, outgoing⟩ :=
    graph.propagate_frame event.instruction event.execution event.position
  simp only [Std.ExtTreeSet.mem_toList] at origin listed
  refine ⟨imports, looked, origin, ?_, listed, wrote, input, vertices, current,
    fun vertex edge => outgoing, edges, decisions⟩
  intro operand member
  obtain ⟨vertex, version, found, _⟩ :=
    looks.source operand (Std.ExtTreeSet.mem_toList.mpr member)
  exact ⟨vertex, version, found⟩

namespace Stages

variable {middle last after : Graph} {event : Event} {imports : List Vertex} {versions : List Nat}

theorem operandOf?_eq (stages : Stages before middle last after event imports versions)
    (vertex : Nat) : after.operandOf? vertex = last.operandOf? vertex := by
  rw [operandOf?, operandOf?, stages.vertices]

theorem size_eq (stages : Stages before middle last after event imports versions) :
    after.vertices.size = last.vertices.size :=
  congrArg Array.size stages.vertices

theorem getElem?_old (stages : Stages before middle last after event imports versions) {vertex : Nat}
    (inside : vertex < middle.vertices.size) : after.vertices[vertex]? = middle.vertices[vertex]? := by
  rw [stages.vertices, stages.wrote.getElem?_vertices, if_pos inside]

theorem current_middle (stages : Stages before middle last after event imports versions)
    (operand : Operand) (vertex : Nat) : middle.current[operand]? = some vertex ↔
      before.current[operand]? = some vertex ∨ before.vertices.size ≤ vertex ∧
        vertex < middle.vertices.size ∧ after.operandOf? vertex = some operand := by
  have unknown : ∀ made ∈ imports, made.operand ∉ before.current := by
    intro made member
    obtain ⟨operand, _, rfl, unknown⟩ := stages.origin made member
    exact unknown
  rw [stages.looked.current_of_unknown unknown]
  apply or_congr_right
  apply and_congr_right
  intro _
  apply and_congr_right
  intro inside
  rw [stages.operandOf?_eq, stages.wrote.operandOf?_old inside]

theorem newest_eq (stages : Stages before middle last after event imports versions) :
    last.newest event.destinations.toList.length =
      List.range' middle.vertices.size (after.vertices.size - middle.vertices.size) := by
  have size := stages.wrote.size
  rw [List.length_map] at size
  rw [newest, stages.size_eq, size, Nat.add_sub_cancel, Nat.add_sub_cancel_left]

theorem not_written_iff (operand : Operand) : (∀ made ∈ event.destinations.toList.map fun operand =>
    (⟨operand, false, versions⟩ : Vertex), made.operand ≠ operand) ↔
      operand ∉ event.destinations := by
  rw [List.forall_mem_map, ← Std.ExtTreeSet.mem_toList]
  constructor
  · intro each member
    exact each operand member rfl
  · rintro outside other member rfl
    exact outside member

theorem extended (stages : Stages before middle last after event imports versions) :
    Extended before after event middle.vertices.size versions := by
  have sizeMiddle := stages.looked.size
  have sizeLast := stages.wrote.size
  have sizeAfter := stages.size_eq
  constructor
  · rw [stages.input, stages.wrote.input, stages.looked.input]
  · omega
  · omega
  · intro vertex inside
    rw [stages.getElem?_old (by omega), stages.looked.getElem?_vertices, if_pos inside]
  · intro vertex above inside
    obtain ⟨made, member, found⟩ := stages.looked.exists_added above inside
    obtain ⟨operand, source, rfl, unknown⟩ := stages.origin made member
    exact ⟨operand, source, unknown, (stages.getElem?_old inside).trans found⟩
  · intro vertex above inside
    obtain ⟨made, member, found⟩ := stages.wrote.exists_added above (sizeAfter ▸ inside)
    obtain ⟨operand, destination, rfl⟩ := List.mem_map.mp member
    exact ⟨operand, Std.ExtTreeSet.mem_toList.mp destination, stages.vertices ▸ found⟩
  · intro operand member
    obtain ⟨vertex, _, found⟩ := stages.source operand member
    rcases (stages.current_middle operand vertex).mp found with old | new
    · exact Or.inl (Graph.mem_current old)
    · exact Or.inr ⟨vertex, new⟩
  · intro vertex
    constructor
    · intro member
      obtain ⟨operand, source, found⟩ := stages.listed vertex member
      exact ⟨operand, source, (stages.current_middle operand vertex).mp found⟩
    · rintro ⟨operand, source, found⟩
      obtain ⟨version, member, known⟩ := stages.source operand source
      rw [(stages.current_middle operand vertex).mpr found, Option.some.injEq] at known
      exact known ▸ member
  · intro operand member
    obtain ⟨vertex, above, named⟩ := stages.wrote.exists_of_added
      (List.mem_map_of_mem (Std.ExtTreeSet.mem_toList.mpr member))
    exact ⟨vertex, above, (stages.operandOf?_eq vertex).trans named⟩
  · intro operand vertex
    rw [stages.current, stages.wrote.current, stages.current_middle, not_written_iff,
      and_comm (b := operand ∉ _), stages.operandOf?_eq]
  · rw [stages.edges, stages.wrote.edges, stages.looked.edges, stages.newest_eq]
  · intro vertex edge
    have older : last.outgoingEdges vertex = before.outgoingEdges vertex := by
      rw [outgoingEdges, outgoingEdges, stages.wrote.outgoing, stages.looked.outgoing]
    rw [stages.outgoing, older, stages.newest_eq, mem_edgesBetween_range (by omega)]
    apply or_congr Iff.rfl
    constructor
    · rintro ⟨⟨source, above, inside, position⟩, rfl⟩
      exact ⟨rfl, source, above, inside, position⟩
    · rintro ⟨rfl, source, above, inside, position⟩
      exact ⟨⟨source, above, inside, position⟩, rfl⟩
  · intro position
    rw [stages.decisions, stages.wrote.decisions, stages.looked.decisions, stages.newest_eq]

end Stages

theorem extend_extended (graph : Graph) (event : Event) :
    ∃ middle versions, Extended graph (graph.extend event) event middle versions := by
  obtain ⟨imports, stages⟩ := graph.extend_stages event
  exact ⟨_, _, stages.extended⟩

structure Noted (graph : Graph) : Prop where
  named : ∀ {vertex : Nat} {operand : Operand}, graph.operandOf? vertex = some operand →
    operand ∈ graph.current
  noted : ∀ address vertex, graph.inputImports[address]? = some vertex ↔
    graph.input.contains address ∧ graph.importedAddress? vertex = some address

namespace Noted

theorem operandOf?_of_importedAddress? {graph : Graph} {vertex address : Nat}
    (imported : graph.importedAddress? vertex = some address) :
    graph.operandOf? vertex = some (.memory address) := by
  unfold importedAddress? at imported
  split at imported
  · rename_i made found
    split at imported
    · rw [operandOf?, found, Option.map_some]
      cases operand : made.operand with
      | register name => simp [operand, Operand.address?] at imported
      | memory byte =>
          rw [operand] at imported
          exact congrArg (fun byte => some (Operand.memory byte)) (Option.some.inj imported)
    · simp at imported
  · simp at imported

theorem named_addVertex {graph : Graph} (noted : graph.Noted) (operand : Operand) (imported : Bool)
    (sources : List Nat) {vertex : Nat} {other : Operand}
    (known : (graph.addVertex operand imported sources).operandOf? vertex = some other) :
    other ∈ (graph.addVertex operand imported sources).current := by
  rw [operandOf?_addVertex] at known
  rw [addVertex, Std.ExtTreeMap.mem_insert, Std.LawfulEqOrd.compare_eq_iff_eq]
  split at known
  · exact Or.inl (Option.some.inj known)
  · exact Or.inr (noted.named known)

theorem addVertex {graph : Graph} (noted : graph.Noted) (operand : Operand) (sources : List Nat) :
    (graph.addVertex operand false sources).Noted := by
  refine ⟨noted.named_addVertex operand false sources, ?_⟩
  intro address vertex
  refine (noted.noted address vertex).trans (and_congr_right ?_)
  intro _
  rw [importedAddress?_addVertex]
  split
  · rename_i last
    simp [importedAddress?, last]
  · rfl

theorem noteImport_vertices (graph : Graph) (operand : Operand) (vertex : Nat) :
    (graph.noteImport operand vertex).vertices = graph.vertices := by
  unfold Graph.noteImport
  split
  · split <;> rfl
  · rfl

theorem importVertex {graph : Graph} (noted : graph.Noted) {operand : Operand}
    (unknown : operand ∉ graph.current) :
    ((graph.addVertex operand true []).noteImport operand graph.vertices.size).Noted := by
  obtain ⟨current, input⟩ :=
    (graph.addVertex operand true []).noteImport_frame operand graph.vertices.size
  have vertices := noteImport_vertices (graph.addVertex operand true []) operand graph.vertices.size
  constructor
  · intro vertex other known
    rw [operandOf?, vertices] at known
    rw [current]
    exact noted.named_addVertex operand true [] known
  · intro address vertex
    have same : ((graph.addVertex operand true []).noteImport operand
        graph.vertices.size).importedAddress? vertex =
          if vertex = graph.vertices.size then operand.address?
          else graph.importedAddress? vertex := by
      rw [importedAddress?, vertices]
      exact importedAddress?_addVertex graph operand true [] vertex
    have here : ((graph.addVertex operand true []).noteImport operand
        graph.vertices.size).input = graph.input := input
    rw [here, same]
    by_cases byte : operand = .memory address ∧ graph.input.contains address
    · obtain ⟨rfl, inside⟩ := byte
      -- The byte had no version, so that none of the old vertices imports it.
      have none : graph.importedAddress? vertex ≠ some address := by
        intro imported
        exact unknown (noted.named (operandOf?_of_importedAddress? imported))
      rw [noteImport_self (graph.addVertex (.memory address) true []) inside, Option.some.injEq]
      by_cases last : vertex = graph.vertices.size
      · rw [if_pos last]
        exact iff_of_true last.symm ⟨inside, rfl⟩
      · rw [if_neg last]
        exact iff_of_false (Ne.symm last) fun known => none known.2
    · have kept : ((graph.addVertex operand true []).noteImport operand
          graph.vertices.size).inputImports[address]? = graph.inputImports[address]? := by
        by_cases other : operand = .memory address
        · subst other
          have outside : ¬ graph.input.contains address := fun inside => byte ⟨rfl, inside⟩
          simp only [Graph.noteImport, Operand.address?, Graph.addVertex, outside]
          rfl
        · exact noteImport_other _ other _
      rw [kept]
      refine (noted.noted address vertex).trans (and_congr_right ?_)
      intro inside
      split
      · rename_i last
        rw [importedAddress?, Array.getElem?_eq_none (by omega)]
        cases operand with
        | register name => exact Iff.rfl
        | memory other =>
            have different : other ≠ address := fun same => byte ⟨congrArg _ same, inside⟩
            simp [Operand.address?, different]
      · rfl

theorem versionOf {graph : Graph} (noted : graph.Noted) (operand : Operand) :
    (graph.versionOf operand).2.Noted := by
  unfold Graph.versionOf
  split
  · exact noted
  · rename_i missing
    apply noted.importVertex
    rw [Std.ExtTreeMap.mem_iff_isSome_getElem?, missing]
    simp

theorem versionsOf {graph : Graph} (noted : graph.Noted) (operands : List Operand) :
    (graph.versionsOf operands).2.Noted := by
  induction operands generalizing graph with
  | nil => exact noted
  | cons operand rest ih => exact ih (noted.versionOf operand)

theorem addVersions {graph : Graph} (noted : graph.Noted) (sources : List Nat)
    (operands : List Operand) : (graph.addVersions sources operands).Noted := by
  induction operands generalizing graph with
  | nil => exact noted
  | cons operand rest ih => exact ih (noted.addVertex operand sources)

theorem extend {graph : Graph} (noted : graph.Noted) (event : Event) : (graph.extend event).Noted := by
  obtain ⟨input, vertices, current, inputImports, _⟩ :=
    graph.propagate_frame event.instruction event.execution event.position
  have written : (graph.written event.instruction event.execution).Noted :=
    (noted.versionsOf _).addVersions _ _
  constructor
  · intro vertex operand known
    rw [Graph.extend, operandOf?, vertices] at known
    rw [Graph.extend, current]
    exact written.named known
  · intro address vertex
    rw [Graph.extend, input, inputImports, importedAddress?, vertices]
    exact written.noted address vertex

end Noted

end BranchSteer.Flow.Graph
