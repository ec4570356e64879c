import BranchSteer.Proofs.DataFlow
import Mathlib.Data.Nat.Find

/-!
A search goes by distance. Its rounds are the vertices at distance zero, one, two and so on, so it scans the
edges of all reachable vertices, the nearest first, and the way back along the parents is a shortest one.
-/

namespace BranchSteer.Flow

namespace Graph

def Rising (graph : Graph) : Prop :=
  ∀ ⦃vertex : Nat⦄ ⦃edge : Edge⦄, edge ∈ graph.outgoingEdges vertex →
    edge.source = vertex ∧ vertex < edge.target ∧ edge.target < graph.vertices.size

theorem Follows.rising {graph : Graph} {base : Nat} {executions : List Execution}
    (follows : graph.Follows base executions) : graph.Rising := by
  intro vertex edge member
  obtain ⟨source, up, inside, _⟩ := follows.edge member
  exact ⟨source, up, inside⟩

inductive Walk (graph : Graph) (start : Nat) : Nat → List Nat → Prop
  | start : Walk graph start start []
  | along {vertex : Nat} {edge : Edge} {trace : List Nat} : Walk graph start vertex trace →
      edge ∈ graph.outgoingEdges vertex → Walk graph start edge.target (trace ++ [edge.position])

def Distance (graph : Graph) (start vertex count : Nat) : Prop :=
  (∃ trace, graph.Walk start vertex trace ∧ trace.length = count) ∧
    ∀ trace, graph.Walk start vertex trace → count ≤ trace.length

def Chain (graph : Graph) (start position : Nat) (trace : List Nat) : Prop :=
  ∃ vertex way edge, graph.Walk start vertex way ∧ edge ∈ graph.outgoingEdges vertex ∧
    edge.position = position ∧ trace = way ++ [position]

/-- A chain to a position, such that no other one is shorter. -/
def Nearest (graph : Graph) (start position : Nat) (trace : List Nat) : Prop :=
  graph.Chain start position trace ∧
    ∀ other, graph.Chain start position other → trace.length ≤ other.length

variable {graph : Graph} {start vertex : Nat}

theorem Distance.unique {one other : Nat} (first : graph.Distance start vertex one)
    (second : graph.Distance start vertex other) : one = other := by
  obtain ⟨⟨trace, walk, length⟩, least⟩ := first
  obtain ⟨⟨rival, walkToo, lengthToo⟩, leastToo⟩ := second
  have below := least rival walkToo
  have above := leastToo trace walk
  omega

theorem Walk.exists_distance {trace : List Nat} (walk : graph.Walk start vertex trace) :
    ∃ count ≤ trace.length, graph.Distance start vertex count := by
  classical
  have some : ∃ count, ∃ trace, graph.Walk start vertex trace ∧ trace.length = count :=
    ⟨_, trace, walk, rfl⟩
  refine ⟨Nat.find some, Nat.find_min' some ⟨trace, walk, rfl⟩, Nat.find_spec some, ?_⟩
  intro other walkToo
  exact Nat.find_min' some ⟨other, walkToo, rfl⟩

theorem distance_start (graph : Graph) (start : Nat) : graph.Distance start start 0 :=
  ⟨⟨[], .start, rfl⟩, fun _ _ => Nat.zero_le _⟩

theorem Distance.eq_start (distance : graph.Distance start vertex 0) : vertex = start := by
  obtain ⟨⟨trace, walk, length⟩, _⟩ := distance
  cases walk with
  | start => rfl
  | along _ _ => simp at length

theorem Distance.along {count : Nat} (distance : graph.Distance start vertex count) {edge : Edge}
    (member : edge ∈ graph.outgoingEdges vertex) :
    ∃ next ≤ count + 1, graph.Distance start edge.target next := by
  obtain ⟨⟨trace, walk, length⟩, _⟩ := distance
  obtain ⟨next, below, found⟩ := (walk.along member).exists_distance
  rw [List.length_append, length, List.length_singleton] at below
  exact ⟨next, below, found⟩

theorem Distance.back {count : Nat} (distance : graph.Distance start vertex (count + 1)) :
    ∃ before, graph.Distance start before count ∧
      ∃ edge ∈ graph.outgoingEdges before, edge.target = vertex := by
  obtain ⟨⟨trace, walk, length⟩, least⟩ := distance
  cases walk with
  | start => simp at length
  | @along before edge trace walk member =>
      rw [List.length_append, List.length_singleton] at length
      refine ⟨before, ⟨⟨trace, walk, by omega⟩, ?_⟩, edge, member, rfl⟩
      intro rival walkToo
      have longer := least _ (walkToo.along member)
      rw [List.length_append, List.length_singleton] at longer
      omega

theorem Distance.lt_of_none {last count : Nat}
    (none : ∀ vertex, ¬ graph.Distance start vertex last)
    (distance : graph.Distance start vertex count) : count < last := by
  induction count generalizing vertex with
  | zero =>
      by_contra beyond
      have same : last = 0 := by omega
      exact none vertex (same ▸ distance)
  | succ count ih =>
      obtain ⟨before, nearer, _⟩ := distance.back
      have below := ih nearer
      by_contra beyond
      have same : last = count + 1 := by omega
      exact none vertex (same ▸ distance)

theorem Walk.rises (rising : graph.Rising) (inside : start < graph.vertices.size) {trace : List Nat}
    (walk : graph.Walk start vertex trace) :
    trace.length ≤ vertex ∧ vertex < graph.vertices.size := by
  induction walk with
  | start => exact ⟨Nat.zero_le _, inside⟩
  | along _ member ih =>
      obtain ⟨_, up, below⟩ := rising member
      rw [List.length_append, List.length_singleton]
      omega

theorem Distance.lt (rising : graph.Rising) (inside : start < graph.vertices.size) {count : Nat}
    (distance : graph.Distance start vertex count) : count < graph.vertices.size := by
  obtain ⟨⟨trace, walk, rfl⟩, _⟩ := distance
  have bounds := walk.rises rising inside
  omega

end Graph

namespace Search

variable {graph : Graph} {start : Nat}

structure Scans (start : Nat) (edges : List Edge) (before after : Search × List Nat) : Prop where
  scanned : after.1.scanned = edges.reverse ++ before.1.scanned
  kept : ∀ {vertex : Nat} {edge : Edge}, before.1.parents[vertex]? = some edge →
    after.1.parents[vertex]? = some edge
  parent : ∀ {vertex : Nat} {edge : Edge}, after.1.parents[vertex]? = some edge →
    before.1.parents[vertex]? = some edge ∨ vertex ∈ after.2 ∧ edge ∈ edges ∧ edge.target = vertex
  waiting : ∀ {vertex : Nat}, vertex ∈ before.2 → vertex ∈ after.2
  origin : ∀ vertex ∈ after.2, vertex ∈ before.2 ∨ vertex ≠ start ∧ vertex ∉ before.1.parents ∧
    vertex ∈ after.1.parents ∧ ∃ edge ∈ edges, edge.target = vertex
  targets : ∀ edge ∈ edges, edge.target = start ∨ edge.target ∈ after.1.parents

theorem mem_parents {parents : Std.ExtTreeMap Nat Edge} {vertex : Nat} :
    vertex ∈ parents ↔ ∃ edge, parents[vertex]? = some edge := by
  rw [Std.ExtTreeMap.mem_iff_isSome_getElem?, Option.isSome_iff_exists]

theorem Scans.parents {edges : List Edge} {before after : Search × List Nat}
    (scans : Scans start edges before after) {vertex : Nat} (member : vertex ∈ before.1.parents) :
    vertex ∈ after.1.parents := by
  obtain ⟨edge, found⟩ := mem_parents.mp member
  exact mem_parents.mpr ⟨edge, scans.kept found⟩

theorem Scans.refl (state : Search × List Nat) : Scans start [] state state :=
  ⟨rfl, id, Or.inl, id, fun _ => Or.inl, by simp⟩

theorem Scans.trans {first second : List Edge} {before middle after : Search × List Nat}
    (one : Scans start first before middle) (two : Scans start second middle after) :
    Scans start (first ++ second) before after := by
  constructor
  · rw [two.scanned, one.scanned, List.reverse_append, List.append_assoc]
  · exact fun found => two.kept (one.kept found)
  · intro vertex edge found
    rcases two.parent found with early | ⟨waits, listed, target⟩
    · rcases one.parent early with old | ⟨waits, listed, target⟩
      · exact Or.inl old
      · exact Or.inr ⟨two.waiting waits, List.mem_append_left _ listed, target⟩
    · exact Or.inr ⟨waits, List.mem_append_right _ listed, target⟩
  · exact fun member => two.waiting (one.waiting member)
  · intro vertex member
    rcases two.origin vertex member with early | ⟨other, fresh, known, edge, listed, target⟩
    · rcases one.origin vertex early with old | ⟨other, fresh, known, edge, listed, target⟩
      · exact Or.inl old
      · exact Or.inr ⟨other, fresh, two.parents known, edge, List.mem_append_left _ listed, target⟩
    · exact Or.inr ⟨other, fun old => fresh (one.parents old), known, edge,
        List.mem_append_right _ listed, target⟩
  · intro edge member
    rcases List.mem_append.mp member with early | late
    · exact (one.targets edge early).imp id two.parents
    · exact two.targets edge late

theorem scans_known {edge : Edge} {search : Search} (reached : List Nat)
    (known : edge.target = start ∨ edge.target ∈ search.parents) :
    Scans start [edge] (search, reached) (⟨search.parents, edge :: search.scanned⟩, reached) := by
  refine ⟨rfl, id, Or.inl, id, fun _ => Or.inl, ?_⟩
  rwa [List.forall_mem_singleton]

theorem scans_new {edge : Edge} {search : Search} (reached : List Nat)
    (other : edge.target ≠ start) (fresh : edge.target ∉ search.parents) :
    Scans start [edge] (search, reached)
      (⟨search.parents.insert edge.target edge, edge :: search.scanned⟩, edge.target :: reached) := by
  have here : edge.target ∈ search.parents.insert edge.target edge :=
    Std.ExtTreeMap.mem_insert_self
  constructor
  · rfl
  · intro vertex parent found
    rw [Std.ExtTreeMap.getElem?_insert, if_neg, found]
    intro same
    rw [Nat.compare_eq_eq] at same
    exact fresh (same ▸ mem_parents.mpr ⟨parent, found⟩)
  · intro vertex parent found
    simp only [Std.ExtTreeMap.getElem?_insert, Nat.compare_eq_eq] at found
    split at found
    · rename_i same
      rw [Option.some.injEq] at found
      subst found
      exact Or.inr ⟨same ▸ List.mem_cons_self, List.mem_cons_self, same⟩
    · exact Or.inl found
  · exact fun member => List.mem_cons_of_mem _ member
  · intro vertex member
    rcases List.mem_cons.mp member with rfl | old
    · exact Or.inr ⟨other, fresh, here, edge, List.mem_cons_self, rfl⟩
    · exact Or.inl old
  · rw [List.forall_mem_singleton]
    exact Or.inr here

theorem scanEdges_scans (edges : List Edge) (search : Search) (reached : List Nat) :
    Scans start edges (search, reached) (scanEdges start edges (search, reached)) := by
  induction edges generalizing search reached with
  | nil => exact .refl _
  | cons edge rest ih =>
      simp only [scanEdges]
      split
      · rename_i known
        rw [Bool.or_eq_true, decide_eq_true_eq, Std.ExtTreeMap.contains_iff_mem] at known
        exact (scans_known reached known).trans (ih _ reached)
      · rename_i unknown
        rw [Bool.or_eq_true, decide_eq_true_eq, Std.ExtTreeMap.contains_iff_mem, not_or] at unknown
        exact (scans_new reached unknown.1 unknown.2).trans (ih _ _)

theorem scanRound_scans (round : List Nat) (state : Search × List Nat) :
    Scans start (round.flatMap graph.outgoingEdges) state (scanRound graph start round state) := by
  induction round generalizing state with
  | nil => exact .refl _
  | cons vertex rest ih =>
      rw [List.flatMap_cons]
      exact (scanEdges_scans (graph.outgoingEdges vertex) state.1 state.2).trans (ih _)

structure Layered (graph : Graph) (start count : Nat) (round : List Nat) (search : Search) :
    Prop where
  round : ∀ vertex, vertex ∈ round ↔ graph.Distance start vertex count
  known : ∀ vertex, vertex = start ∨ vertex ∈ search.parents ↔
    ∃ near ≤ count, graph.Distance start vertex near
  parent : ∀ {vertex : Nat} {edge : Edge}, search.parents[vertex]? = some edge →
    edge.target = vertex ∧ edge ∈ graph.outgoingEdges edge.source ∧
      ∃ near, graph.Distance start edge.source near ∧ graph.Distance start vertex (near + 1)
  scanned : ∀ edge, edge ∈ search.scanned ↔ edge ∈ graph.outgoingEdges edge.source ∧
    ∃ near < count, graph.Distance start edge.source near
  sorted : search.scanned.Pairwise fun late early => ∀ {far near : Nat},
    graph.Distance start late.source far → graph.Distance start early.source near → near ≤ far

theorem layered_empty (graph : Graph) (start : Nat) : Layered graph start 0 [start] empty := by
  have alone : ∀ vertex, vertex = start ↔ graph.Distance start vertex 0 := by
    intro vertex
    constructor
    · rintro rfl
      exact graph.distance_start vertex
    · exact Graph.Distance.eq_start
  refine ⟨?_, ?_, by simp [empty], by simp [empty], .nil⟩
  · intro vertex
    rw [List.mem_singleton]
    exact alone vertex
  · intro vertex
    simp [empty, alone]

variable {count : Nat} {round : List Nat} {search : Search}

theorem mem_edges_of_round (rising : graph.Rising) (layered : Layered graph start count round search)
    (edge : Edge) : edge ∈ round.flatMap graph.outgoingEdges ↔
      edge ∈ graph.outgoingEdges edge.source ∧ graph.Distance start edge.source count := by
  rw [List.mem_flatMap]
  constructor
  · rintro ⟨vertex, waiting, member⟩
    obtain ⟨rfl, _⟩ := rising member
    exact ⟨member, (layered.round _).mp waiting⟩
  · rintro ⟨member, distance⟩
    exact ⟨edge.source, (layered.round _).mpr distance, member⟩

theorem Layered.distance_of_reached (rising : graph.Rising)
    (layered : Layered graph start count round search) {after : Search × List Nat}
    (scans : Scans start (round.flatMap graph.outgoingEdges) (search, []) after) {vertex : Nat}
    (reached : vertex ∈ after.2) : graph.Distance start vertex (count + 1) := by
  obtain ⟨other, fresh, _, edge, listed, rfl⟩ :=
    (scans.origin vertex reached).resolve_left List.not_mem_nil
  obtain ⟨member, distance⟩ := (mem_edges_of_round rising layered edge).mp listed
  obtain ⟨next, below, found⟩ := distance.along member
  have far : ¬ next ≤ count := by
    intro near
    rcases (layered.known _).mpr ⟨next, near, found⟩ with same | known
    · exact other same
    · exact fresh known
  have same : next = count + 1 := by omega
  exact same ▸ found

theorem Layered.reached_of_distance (rising : graph.Rising)
    (layered : Layered graph start count round search) {after : Search × List Nat}
    (scans : Scans start (round.flatMap graph.outgoingEdges) (search, []) after) {vertex : Nat}
    (distance : graph.Distance start vertex (count + 1)) : vertex ∈ after.2 := by
  obtain ⟨before, nearer, edge, member, rfl⟩ := distance.back
  obtain ⟨rfl, _⟩ := rising member
  have far : ¬ (edge.target = start ∨ edge.target ∈ search.parents) := by
    rw [layered.known]
    rintro ⟨near, below, found⟩
    have same := found.unique distance
    omega
  rcases scans.targets edge ((mem_edges_of_round rising layered edge).mpr ⟨member, nearer⟩) with
    same | known
  · exact absurd (Or.inl same) far
  · obtain ⟨parent, found⟩ := mem_parents.mp known
    rcases scans.parent found with old | ⟨waits, _⟩
    · exact absurd (Or.inr (mem_parents.mpr ⟨parent, old⟩)) far
    · exact waits

theorem Layered.step (rising : graph.Rising) (layered : Layered graph start count round search)
    {after : Search × List Nat}
    (scans : Scans start (round.flatMap graph.outgoingEdges) (search, []) after) :
    Layered graph start (count + 1) after.2.reverse after.1 := by
  have listed := mem_edges_of_round rising layered
  have member : ∀ vertex, vertex ∈ after.2 ↔ graph.Distance start vertex (count + 1) := fun _ =>
    ⟨layered.distance_of_reached rising scans, layered.reached_of_distance rising scans⟩
  constructor
  · intro vertex
    rw [List.mem_reverse]
    exact member vertex
  · intro vertex
    constructor
    · rintro (same | known)
      · obtain ⟨near, below, found⟩ := (layered.known vertex).mp (Or.inl same)
        exact ⟨near, by omega, found⟩
      · obtain ⟨edge, found⟩ := mem_parents.mp known
        rcases scans.parent found with old | ⟨waits, _⟩
        · obtain ⟨near, below, found⟩ :=
            (layered.known vertex).mp (Or.inr (mem_parents.mpr ⟨edge, old⟩))
          exact ⟨near, by omega, found⟩
        · exact ⟨count + 1, Nat.le_refl _, (member vertex).mp waits⟩
    · rintro ⟨near, below, found⟩
      rcases Nat.lt_or_ge count near with far | low
      · have same : near = count + 1 := by omega
        subst same
        obtain ⟨_, _, known, _⟩ :=
          (scans.origin vertex ((member vertex).mpr found)).resolve_left List.not_mem_nil
        exact Or.inr known
      · exact ((layered.known vertex).mpr ⟨near, low, found⟩).imp id scans.parents
  · intro vertex edge found
    rcases scans.parent found with old | ⟨waits, here, target⟩
    · exact layered.parent old
    · obtain ⟨leaves, distance⟩ := (listed edge).mp here
      exact ⟨target, leaves, count, distance, (member vertex).mp waits⟩
  · intro edge
    rw [scans.scanned, List.mem_append, List.mem_reverse, listed, layered.scanned]
    constructor
    · rintro (⟨leaves, distance⟩ | ⟨leaves, near, below, distance⟩)
      · exact ⟨leaves, count, by omega, distance⟩
      · exact ⟨leaves, near, by omega, distance⟩
    · rintro ⟨leaves, near, below, distance⟩
      rcases Nat.lt_or_ge near count with low | high
      · exact Or.inr ⟨leaves, near, low, distance⟩
      · have same : near = count := by omega
        exact Or.inl ⟨leaves, same ▸ distance⟩
  · -- The edges of this round start at one distance, those of the rounds before at smaller ones.
    rw [scans.scanned, List.pairwise_append]
    refine ⟨?_, layered.sorted, ?_⟩
    · apply List.pairwise_of_forall_mem_list
      intro late here early there far near left right
      rw [List.mem_reverse, listed] at here there
      exact Nat.le_of_eq ((right.unique there.2).trans (left.unique here.2).symm)
    · intro late here early there far near left right
      rw [List.mem_reverse, listed] at here
      obtain ⟨_, low, below, distance⟩ := (layered.scanned early).mp there
      rw [left.unique here.2, right.unique distance]
      omega

theorem rounds_layered (rising : graph.Rising) (inside : start < graph.vertices.size) (bound : Nat)
    {count : Nat} {round : List Nat} {search : Search}
    (layered : Layered graph start count round search)
    (enough : graph.vertices.size ≤ count + bound) :
    ∃ last, Layered graph start last [] (rounds graph start bound round search) := by
  induction bound generalizing count round search with
  | zero =>
      have none : round = [] := by
        rw [List.eq_nil_iff_forall_not_mem]
        intro vertex waiting
        have below := ((layered.round vertex).mp waiting).lt rising inside
        omega
      exact ⟨count, none ▸ layered⟩
  | succ bound ih =>
      cases round with
      | nil => exact ⟨count, layered⟩
      | cons first rest =>
          exact ih (layered.step rising (scanRound_scans _ _)) (by omega)

/-- A finished search has scanned the edges of all vertices that there is a way to, the nearest first. -/
structure Finished (graph : Graph) (start : Nat) (search : Search) : Prop where
  known : ∀ {vertex : Nat} {trace : List Nat}, graph.Walk start vertex trace →
    vertex = start ∨ vertex ∈ search.parents
  parent : ∀ {vertex : Nat} {edge : Edge}, search.parents[vertex]? = some edge →
    edge.target = vertex ∧ edge ∈ graph.outgoingEdges edge.source ∧
      ∃ near, graph.Distance start edge.source near ∧ graph.Distance start vertex (near + 1)
  scanned : ∀ edge, edge ∈ search.scanned ↔ edge ∈ graph.outgoingEdges edge.source ∧
    ∃ trace, graph.Walk start edge.source trace
  sorted : search.scanned.Pairwise fun late early => ∀ {far near : Nat},
    graph.Distance start late.source far → graph.Distance start early.source near → near ≤ far

theorem startingAt_finished (rising : graph.Rising) (inside : start < graph.vertices.size) :
    Finished graph start (startingAt graph start) := by
  obtain ⟨last, layered⟩ := rounds_layered rising inside (graph.vertices.size + 1)
    (layered_empty graph start) (by omega)
  have all : ∀ {vertex count : Nat}, graph.Distance start vertex count → count < last :=
    Graph.Distance.lt_of_none fun vertex distance =>
      List.not_mem_nil ((layered.round vertex).mpr distance)
  refine ⟨?_, layered.parent, ?_, layered.sorted⟩
  · intro vertex trace walk
    obtain ⟨count, _, distance⟩ := walk.exists_distance
    exact (layered.known vertex).mpr ⟨count, Nat.le_of_lt (all distance), distance⟩
  · intro edge
    refine (layered.scanned edge).trans (and_congr_right fun _ => ?_)
    constructor
    · rintro ⟨near, _, ⟨trace, walk, _⟩, _⟩
      exact ⟨trace, walk⟩
    · rintro ⟨trace, walk⟩
      obtain ⟨count, _, distance⟩ := walk.exists_distance
      exact ⟨count, all distance, distance⟩

theorem traceBack_shortest {search : Search} (finished : Finished graph start search) (address : Nat)
    {bound near : Nat} {edge : Edge} (trace : List Nat)
    (distance : graph.Distance start edge.source near) (enough : near < bound) :
    ∃ way, graph.Walk start edge.source way ∧ way.length = near ∧
      search.traceBack address start bound edge trace = .ok (way ++ edge.position :: trace) := by
  induction bound generalizing near edge trace with
  | zero => omega
  | succ bound ih =>
      simp only [traceBack]
      split
      · rename_i here
        rw [here] at distance ⊢
        exact ⟨[], .start, (graph.distance_start start).unique distance, rfl⟩
      · rename_i inner
        obtain ⟨_, walk, _⟩ := distance.1
        obtain ⟨parent, found⟩ := mem_parents.mp ((finished.known walk).resolve_left inner)
        obtain ⟨target, leaves, nearer, before, here⟩ := finished.parent found
        have same := here.unique distance
        obtain ⟨way, walk, length, done⟩ := ih (edge.position :: trace) before (by omega)
        refine ⟨way ++ [parent.position], target ▸ walk.along leaves, ?_, ?_⟩
        · rw [List.length_append, length, List.length_singleton, same]
        · simp only [found, done, List.append_assoc, List.singleton_append]

end Search

end BranchSteer.Flow
