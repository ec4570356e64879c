import BranchSteer.Proofs.Chains

/-!
The two other searches of a graph. One follows the sources of vertices back and comes to each vertex once. The
other passes over the edges in the order of their creation, in which no edge leads to a vertex that an earlier
one has left. Both find what edges lead to or from.
-/

namespace BranchSteer.Flow

inductive Along (edges : List Edge) (start : Nat) : Nat → Prop
  | start : Along edges start start
  | step {edge : Edge} : Along edges start edge.source → edge ∈ edges →
      Along edges start edge.target

namespace Along

variable {edges : List Edge} {start vertex : Nat}

theorem mono {more : List Edge} (along : Along edges start vertex) (within : edges ⊆ more) :
    Along more start vertex := by
  induction along with
  | start => exact .start
  | step _ member ih => exact .step ih (within member)

theorem start_le (up : ∀ edge ∈ edges, edge.source < edge.target)
    (along : Along edges start vertex) : start ≤ vertex := by
  induction along with
  | start => exact Nat.le_refl _
  | step _ member ih => exact Nat.le_trans ih (Nat.le_of_lt (up _ member))

theorem not_back (up : ∀ edge ∈ edges, edge.source < edge.target) {edge : Edge}
    (member : edge ∈ edges) : ¬ Along edges edge.target edge.source :=
  fun back => Nat.not_lt_of_le (back.start_le up) (up edge member)

theorem concat_iff {last : Edge} (apart : ∀ edge ∈ edges, edge.source < last.target)
    (up : last.source < last.target) : Along (edges ++ [last]) start vertex ↔
      Along edges start vertex ∨ Along edges start last.source ∧ vertex = last.target := by
  constructor
  · intro along
    induction along with
    | start => exact Or.inl .start
    | @step edge _ member ih =>
        rcases List.mem_append.mp member with old | new
        · rcases ih with before | ⟨_, same⟩
          · exact Or.inl (.step before old)
          · have below := apart edge old
            omega
        · rw [List.mem_singleton] at new
          subst new
          rcases ih with before | ⟨_, same⟩
          · exact Or.inr ⟨before, rfl⟩
          · omega
  · rintro (before | ⟨before, rfl⟩)
    · exact before.mono (List.subset_append_left _ _)
    · exact .step (before.mono (List.subset_append_left _ _)) (by simp)

end Along

namespace Graph

theorem mem_pass_iff {edges : List Edge}
    (ordered : edges.Pairwise fun earlier later => earlier.source < later.target)
    (up : ∀ edge ∈ edges, edge.source < edge.target) (start vertex : Nat) :
    vertex ∈ edges.foldl (fun reached edge =>
      if reached.contains edge.source then reached.insert edge.target else reached)
      (Std.ExtTreeSet.ofList [start]) ↔ Along edges start vertex := by
  induction edges using List.reverseRecOn generalizing vertex with
  | nil =>
      simp only [List.foldl_nil, Std.ExtTreeSet.mem_ofList, List.contains_iff_mem,
        List.mem_singleton]
      constructor
      · rintro rfl
        exact .start
      · intro along
        cases along with
        | start => rfl
        | step _ member => simp at member
  | append_singleton edges last ih =>
      obtain ⟨earlier, _, apart⟩ := List.pairwise_append.mp ordered
      have found := ih earlier fun edge member => up edge (List.mem_append_left _ member)
      rw [Along.concat_iff (fun edge member => apart edge member last (by simp))
        (up last (by simp)), List.foldl_append, List.foldl_cons, List.foldl_nil, ← found, ← found]
      split
      · rename_i known
        rw [Std.ExtTreeSet.contains_iff_mem] at known
        rw [Std.ExtTreeSet.mem_insert, Nat.compare_eq_eq, or_comm, eq_comm, and_iff_right known]
      · rename_i unknown
        rw [Std.ExtTreeSet.contains_iff_mem] at unknown
        rw [or_iff_left (fun reached => unknown reached.1)]

/-- The list of all edges agrees with what is known at the vertices. -/
structure Listed (graph : Graph) : Prop where
  member : ∀ edge, edge ∈ graph.edges.toList ↔ edge ∈ graph.outgoingEdges edge.source
  ordered : graph.edges.toList.Pairwise fun earlier later => earlier.source < later.target
  sources : ∀ vertex, graph.sourcesOf vertex =
    (graph.edges.toList.filter fun edge => edge.target = vertex).map Edge.source

theorem Listed.rises {graph : Graph} (listed : graph.Listed) (rising : graph.Rising) :
    ∀ edge ∈ graph.edges.toList, edge.source < edge.target ∧ edge.target < graph.vertices.size :=
  fun edge member => (rising ((listed.member edge).mp member)).2

theorem edgesBetween_to (versions : List Nat) (first count position vertex : Nat) :
    ((edgesBetween versions (List.range' first count) position).filter fun edge =>
      edge.target = vertex) = if first ≤ vertex ∧ vertex < first + count then
        versions.map fun source => ⟨source, vertex, position⟩ else [] := by
  have once : (List.range' first count).filter (fun target => target = vertex) =
      if first ≤ vertex ∧ vertex < first + count then [vertex] else [] := by
    rw [List.filter_eq, (List.nodup_range' 1).count]
    simp only [List.mem_range'_1]
    split <;> rfl
  induction versions with
  | nil => simp [edgesBetween]
  | cons source rest ih =>
      unfold edgesBetween at ih ⊢
      rw [List.flatMap_cons, List.filter_append, ih, List.filter_map]
      simp only [Function.comp_def]
      rw [once]
      split <;> rfl

theorem sources_edgesBetween (versions : List Nat) (first count position vertex : Nat) :
    ((edgesBetween versions (List.range' first count) position).filter fun edge =>
      edge.target = vertex).map Edge.source =
        if first ≤ vertex ∧ vertex < first + count then versions else [] := by
  rw [edgesBetween_to]
  split
  · simp [Function.comp_def]
  · rfl

namespace Extended

variable {before after : Graph} {event : Event} {middle : Nat} {versions : List Nat}

theorem version_lt (extended : Extended before after event middle versions) (bound : Bound before)
    {vertex : Nat} (member : vertex ∈ versions) : vertex < middle := by
  have lower := extended.lower
  obtain ⟨operand, _, found | ⟨_, inside, _⟩⟩ := (extended.version vertex).mp member
  · have below := bound found
    omega
  · exact inside

theorem sourcesOf_after (extended : Extended before after event middle versions) (vertex : Nat) :
    after.sourcesOf vertex = if vertex < before.vertices.size then before.sourcesOf vertex
      else if middle ≤ vertex ∧ vertex < after.vertices.size then versions else [] := by
  have lower := extended.lower
  have upper := extended.upper
  rcases Nat.lt_or_ge vertex before.vertices.size with old | above
  · rw [if_pos old, sourcesOf, extended.old vertex old, sourcesOf]
  · rw [if_neg (by omega), sourcesOf]
    rcases Nat.lt_or_ge vertex middle with low | high
    · obtain ⟨operand, _, _, found⟩ := extended.imported vertex above low
      rw [found, if_neg (by omega)]
    · rcases Nat.lt_or_ge vertex after.vertices.size with inside | beyond
      · obtain ⟨operand, _, found⟩ := extended.written vertex high inside
        rw [found, if_pos ⟨high, inside⟩]
      · rw [Array.getElem?_eq_none beyond, if_neg (by omega)]

end Extended

theorem Listed.extend {before after : Graph} {event : Event} {middle : Nat} {versions : List Nat}
    (listed : before.Listed) (bound : Bound before) (rising : before.Rising)
    (extended : Extended before after event middle versions) : after.Listed := by
  have lower := extended.lower
  have upper := extended.upper
  have inside := listed.rises rising
  constructor
  · intro edge
    rw [extended.edges, List.mem_append, listed.member, extended.outgoing,
      mem_edgesBetween_range upper]
    simp only [true_and]
  · rw [extended.edges, List.pairwise_append]
    refine ⟨listed.ordered, ?_, ?_⟩
    · apply List.pairwise_of_forall_mem_list
      intro edge member other memberToo
      have older := extended.version_lt bound ((mem_edgesBetween_range upper _ _ _).mp member).1
      have newer := ((mem_edgesBetween_range upper _ _ _).mp memberToo).2.1
      omega
    · intro edge member other memberToo
      have older := inside edge member
      have newer := ((mem_edgesBetween_range upper _ _ _).mp memberToo).2.1
      omega
  · intro vertex
    rw [extended.sourcesOf_after, extended.edges, List.filter_append, List.map_append,
      sources_edgesBetween, Nat.add_sub_cancel' upper, ← listed.sources]
    rcases Nat.lt_or_ge vertex before.vertices.size with old | above
    · rw [if_pos old, if_neg (by omega), List.append_nil]
    · have none : before.sourcesOf vertex = [] := by
        rw [sourcesOf, Array.getElem?_eq_none above]
      rw [if_neg (by omega), none, List.nil_append]

theorem ofEvents_listed (input : InputBuffer) (events : List Event) :
    (ofEvents input events).Listed := by
  induction events using List.reverseRecOn with
  | nil => constructor <;> simp [ofEvents, empty, outgoingEdges, sourcesOf]
  | append_singleton events event ih =>
      obtain ⟨middle, versions, extended⟩ := extend_extended (ofEvents input events) event
      rw [ofEvents_concat]
      exact ih.extend (ofEvents_bound input events) (ofEvents_rising input events) extended

namespace Listed

variable {graph : Graph} {start vertex : Nat}

theorem along_iff_reaches (listed : graph.Listed) (rising : graph.Rising) :
    Along graph.edges.toList start vertex ↔ graph.Reaches start vertex := by
  constructor
  · intro along
    induction along with
    | start => exact .start
    | step _ member ih => exact .along ih ((listed.member _).mp member)
  · intro reaches
    induction reaches with
    | start => exact .start
    | along _ member ih =>
        obtain ⟨rfl, _⟩ := rising member
        exact .step ih ((listed.member _).mpr member)

theorem mem_reachable (listed : graph.Listed) (rising : graph.Rising) :
    vertex ∈ graph.reachable start ↔ graph.Reaches start vertex := by
  rw [← listed.along_iff_reaches rising, reachable, ← Array.foldl_toList]
  exact mem_pass_iff listed.ordered (fun edge member => (listed.rises rising edge member).1) start
    vertex

theorem mem_sourcesOf (listed : graph.Listed) {source : Nat} :
    source ∈ graph.sourcesOf vertex ↔
      ∃ edge ∈ graph.edges.toList, edge.source = source ∧ edge.target = vertex := by
  rw [listed.sources, List.mem_map]
  simp only [List.mem_filter, decide_eq_true_eq]
  apply exists_congr
  intro edge
  rw [and_assoc, and_comm (a := edge.target = vertex)]

end Listed

/-- The edges into vertices that were not found yet. Each of them makes a vertex pending at most once. -/
def remaining (graph : Graph) (found : Std.ExtTreeSet Nat) : Nat :=
  (graph.edges.toList.filter fun edge => edge.target ∉ found).length

theorem remaining_le (graph : Graph) (found : Std.ExtTreeSet Nat) :
    graph.remaining found ≤ graph.edges.size := by
  rw [remaining, ← Array.length_toList]
  exact List.length_filter_le _ _

namespace Listed

variable {graph : Graph} {vertex : Nat}

theorem remaining_insert (listed : graph.Listed) {found : Std.ExtTreeSet Nat}
    (fresh : vertex ∉ found) : graph.remaining found =
      (graph.sourcesOf vertex).length + graph.remaining (found.insert vertex) := by
  unfold remaining
  rw [listed.sources, List.length_map]
  generalize graph.edges.toList = edges
  induction edges with
  | nil => rfl
  | cons edge rest ih =>
      simp only [List.filter_cons, Std.ExtTreeSet.mem_insert, Nat.compare_eq_eq, not_or,
        Bool.decide_and, Bool.and_eq_true, decide_eq_true_eq] at ih ⊢
      by_cases here : edge.target = vertex
      · have left : edge.target ∉ found := here ▸ fresh
        have right : ¬ (¬ vertex = edge.target ∧ edge.target ∉ found) := fun both => both.1 here.symm
        rw [if_pos left, if_pos here, if_neg right, List.length_cons, List.length_cons, ih]
        omega
      · rw [if_neg here]
        by_cases known : edge.target ∈ found
        · rw [if_neg (not_not_intro known), if_neg (fun both => both.2 known), ih]
        · rw [if_pos known, if_pos ⟨Ne.symm here, known⟩, List.length_cons, List.length_cons, ih]
          omega

end Listed

structure Gathers (graph : Graph) (pending : List Nat) (found result : Std.ExtTreeSet Nat) : Prop where
  within : ∀ vertex, vertex ∈ found ∨ vertex ∈ pending → vertex ∈ result
  closed : ∀ vertex ∈ result, ∀ source ∈ graph.sourcesOf vertex, source ∈ result
  origin : ∀ vertex ∈ result, vertex ∈ found ∨
    ∃ root ∈ pending, Along graph.edges.toList vertex root

def Waits (graph : Graph) (pending : List Nat) (found : Std.ExtTreeSet Nat) : Prop :=
  ∀ vertex ∈ found, ∀ source ∈ graph.sourcesOf vertex, source ∈ found ∨ source ∈ pending

variable {graph : Graph} {vertex : Nat} {pending : List Nat} {found result : Std.ExtTreeSet Nat}

theorem Waits.gathers_nil (waits : Waits graph [] found) : Gathers graph [] found found := by
  refine ⟨fun _ known => known.resolve_right List.not_mem_nil, ?_, fun _ => Or.inl⟩
  intro vertex member source here
  exact (waits vertex member source here).resolve_right List.not_mem_nil

theorem Waits.skip (waits : Waits graph (vertex :: pending) found) (known : vertex ∈ found) :
    Waits graph pending found := by
  intro other member source here
  rcases waits other member source here with early | waiting
  · exact Or.inl early
  · rcases List.mem_cons.mp waiting with rfl | late
    · exact Or.inl known
    · exact Or.inr late

theorem Gathers.skip (gathers : Gathers graph pending found result) (known : vertex ∈ found) :
    Gathers graph (vertex :: pending) found result := by
  refine ⟨?_, gathers.closed, ?_⟩
  · rintro other (early | waiting)
    · exact gathers.within other (Or.inl early)
    · rcases List.mem_cons.mp waiting with rfl | late
      · exact gathers.within _ (Or.inl known)
      · exact gathers.within other (Or.inr late)
  · intro other member
    apply (gathers.origin other member).imp id
    rintro ⟨root, waiting, along⟩
    exact ⟨root, List.mem_cons_of_mem _ waiting, along⟩

theorem Waits.take (waits : Waits graph (vertex :: pending) found) :
    Waits graph (graph.sourcesOf vertex ++ pending) (found.insert vertex) := by
  intro other member source here
  rw [Std.ExtTreeSet.mem_insert, Nat.compare_eq_eq] at member ⊢
  rw [List.mem_append]
  rcases member with rfl | early
  · exact Or.inr (Or.inl here)
  · rcases waits other early source here with known | waiting
    · exact Or.inl (Or.inr known)
    · rcases List.mem_cons.mp waiting with rfl | late
      · exact Or.inl (Or.inl rfl)
      · exact Or.inr (Or.inr late)

theorem Gathers.take (listed : graph.Listed)
    (gathers : Gathers graph (graph.sourcesOf vertex ++ pending) (found.insert vertex) result) :
    Gathers graph (vertex :: pending) found result := by
  refine ⟨?_, gathers.closed, ?_⟩
  · rintro other (early | waiting)
    · exact gathers.within other (Or.inl (Std.ExtTreeSet.mem_insert.mpr (Or.inr early)))
    · rcases List.mem_cons.mp waiting with rfl | late
      · exact gathers.within _ (Or.inl Std.ExtTreeSet.mem_insert_self)
      · exact gathers.within other (Or.inr (List.mem_append_right _ late))
  · intro other member
    rcases gathers.origin other member with known | ⟨root, waiting, along⟩
    · rw [Std.ExtTreeSet.mem_insert, Nat.compare_eq_eq] at known
      rcases known with rfl | early
      · exact Or.inr ⟨_, List.mem_cons_self, .start⟩
      · exact Or.inl early
    · right
      rcases List.mem_append.mp waiting with source | late
      · -- The root is a source of the vertex, which is one edge farther.
        obtain ⟨edge, here, rfl, rfl⟩ := listed.mem_sourcesOf.mp source
        exact ⟨_, List.mem_cons_self, .step along here⟩
      · exact ⟨root, List.mem_cons_of_mem _ late, along⟩

theorem Listed.ancestorsWithin_gathers (listed : graph.Listed) (bound : Nat) {pending : List Nat}
    {found : Std.ExtTreeSet Nat} (enough : pending.length + graph.remaining found ≤ bound)
    (waits : Waits graph pending found) :
    Gathers graph pending found (graph.ancestorsWithin bound pending found) := by
  induction bound generalizing pending found with
  | zero =>
      have none : pending = [] := List.eq_nil_of_length_eq_zero (by omega)
      subst none
      exact waits.gathers_nil
  | succ bound ih =>
      cases pending with
      | nil => exact waits.gathers_nil
      | cons first rest =>
          rw [List.length_cons] at enough
          simp only [ancestorsWithin]
          split
          · rename_i known
            rw [Std.ExtTreeSet.contains_iff_mem] at known
            exact (ih (by omega) (waits.skip known)).skip known
          · rename_i fresh
            rw [Std.ExtTreeSet.contains_iff_mem] at fresh
            have fewer := listed.remaining_insert fresh
            exact .take listed (ih (by rw [List.length_append]; omega) waits.take)

theorem Listed.mem_ancestors (listed : graph.Listed) (roots : List Nat) :
    vertex ∈ graph.ancestors roots ↔ ∃ root ∈ roots, Along graph.edges.toList vertex root := by
  have gathers : Gathers graph roots ∅ (graph.ancestors roots) :=
    listed.ancestorsWithin_gathers _ (Nat.add_le_add_left (graph.remaining_le ∅) _) (by simp [Waits])
  constructor
  · intro member
    exact (gathers.origin vertex member).resolve_left Std.ExtTreeSet.not_mem_empty
  · rintro ⟨root, listedRoot, along⟩
    have last := gathers.within root (Or.inr listedRoot)
    clear listedRoot
    induction along with
    | start => exact last
    | step _ member ih =>
        exact ih (gathers.closed _ last _ (listed.mem_sourcesOf.mpr ⟨_, member, rfl, rfl⟩))

end Graph

end BranchSteer.Flow
