import Mathlib.Logic.Relation
import Dominance.Proofs.GraphBuild
import Dominance.Proofs.Postorder
import Dominance.Proofs.WalkOrder

namespace Dominance

/-!
# Reducible graphs

A graph is reducible if no cycle is left once all edges are removed that lead to a
dominator of their source.  In such a graph every edge that retreats in a depth-first
numbering is one of these: from its target the walk came down to its source, along edges
that lead to lower indices, and no lower index dominates a higher one.

A path that repeats no block never retreats then, since it would come back to a block
that it has passed.  So the first pass sees through all paths.  The second one changes
nothing, and the build ends.
-/

/-- A path follows the edges of any relation that holds along it. -/
theorem Path.reflTransGen
    {edge relation : α → α → Prop}
    {start node : α}
    {nodes : List α}
    (included : ∀ last next, edge last next → relation last next)
    (path : Path edge start node nodes) :
    Relation.ReflTransGen relation start node := by
  induction path with
  | start => exact .refl
  | extend _ step inductionHypothesis =>
      exact inductionHypothesis.tail (included _ _ step)

/-- The only predecessor of a node lies on every path to it. -/
theorem OnEveryPath.of_onlySource
    {edge : α → α → Prop}
    {start dominator node : α}
    (notStart : node ≠ start)
    (only : ∀ previous, edge previous node → previous = dominator) :
    OnEveryPath edge start dominator node := by
  intro nodes path
  cases path with
  | start => exact absurd rfl notStart
  | extend path step => exact List.mem_cons_of_mem _ (only _ step ▸ path.node_mem)

namespace IndexGraph

variable {graph : IndexGraph}

/-- An edge that does not lead to a dominator of its source. -/
def Onward (graph : IndexGraph) (source target : Nat) : Prop :=
  graph.Edge source target ∧ ¬ graph.Dominates target source

/-- An edge to a lower index. -/
def Falls (graph : IndexGraph) (source target : Nat) : Prop :=
  graph.Edge source target ∧ target < source

/-- Every edge that retreats leads to a dominator of its source. -/
def RetreatsToDominators (graph : IndexGraph) : Prop :=
  ∀ source target,
    graph.Edge source target → source < target → graph.Dominates target source

/-- No index dominates a higher one. -/
theorem Falls.onward
    {source target : Nat}
    (supported : ∀ index < graph.root, graph.Supported index)
    (falls : graph.Falls source target) :
    graph.Onward source target := by
  obtain ⟨edge, lower⟩ := falls
  refine ⟨edge, ?_⟩
  intro dominates
  obtain ⟨nodes, path, above⟩ :=
    exists_path_above supported (graph.inside target source edge.2)
  exact Nat.not_lt.mpr (above target (dominates nodes path)) lower

/-- Without a cycle of edges that go on, edges retreat to dominators only. -/
theorem retreatsToDominators
    (supported : ∀ index < graph.root, graph.Supported index)
    (acyclic : ∀ index, ¬ Relation.TransGen graph.Onward index index)
    (comesDown :
      ∀ source target,
        graph.Edge source target → source < target → Reaches graph.Falls target source) :
    graph.RetreatsToDominators := by
  intro source target edge retreats
  by_contra notDominator
  obtain ⟨nodes, path⟩ := comesDown source target edge retreats
  have wayDown : Relation.ReflTransGen graph.Onward target source :=
    path.reflTransGen fun _ _ falls => falls.onward supported
  exact acyclic target (.tail' wayDown ⟨edge, notDominator⟩)

/-- A path that repeats no index never retreats. -/
theorem RetreatsToDominators.retreats_eq_zero
    {index : Nat}
    {nodes : List Nat}
    (toDominators : graph.RetreatsToDominators)
    (path : Path graph.Edge graph.root index nodes)
    (noRepetition : nodes.Nodup) :
    retreats nodes = 0 := by
  induction path with
  | start => rfl
  | @extend last next nodes path edge inductionHypothesis =>
      obtain ⟨isNew, restOnce⟩ := List.nodup_cons.mp noRepetition
      have forward : ¬ last < next := by
        intro retreats
        exact isNew (toDominators last next edge retreats nodes path)
      rw [retreats_extend path, if_neg forward, inductionHypothesis restOnce]

end IndexGraph

namespace Progress

/-- Where edges retreat to dominators only, a run makes two passes. -/
theorem settle?_twice
    {host : Host}
    {seed : DominatorTree}
    {limit : Option Nat}
    {rounds : Nat}
    (settled : host.SettlesAt 0)
    (resolvable :
      ∀ index < (host.indexGraph 0 seed).root, host.Resolvable 0 seed index)
    (rooted : seed.Rooted (host.indexGraph 0 seed).root)
    (unlinked :
      ∀ index < (host.indexGraph 0 seed).root, seed.isLinked index = false)
    (toDominators : (host.indexGraph 0 seed).RetreatsToDominators)
    (several : 0 < (host.indexGraph 0 seed).root)
    (highLimit : ∀ bound, limit = some bound → 2 ≤ bound)
    (enough : 3 ≤ rounds) :
    ∃ final,
      (start seed).settle? host limit rounds = some (.ok final) ∧
        Settling host seed final ∧ final.changed = false ∧ final.passes = 2 := by
  have starting := Settling.start rooted unlinked
  obtain ⟨first, passed, passes_eq, order_eq, sweeping, changed_iff⟩ :=
    starting.exists_pass settled resolvable
  -- The first pass links the lowest index.
  have firstChanged : first.changed = true := by
    refine changed_iff.mpr ⟨0, ?_⟩
    intro same
    have linked := sweeping.visited (Nat.zero_le 0) (Nat.zero_le _)
    have notLinked := unlinked 0 several
    rw [DominatorTree.isLinked, same] at linked
    rw [DominatorTree.isLinked] at notLinked
    exact Bool.noConfusion (linked.symm.trans notLinked)
  have settling := starting.of_sweeping rfl passes_eq order_eq sweeping changed_iff
  have firstPasses : first.passes = 1 := passes_eq
  obtain ⟨second, passedAgain, morePasses, sameOrder, again, changedAgain⟩ :=
    settling.exists_pass settled resolvable
  have secondPasses : second.passes = 2 := by rw [morePasses, firstPasses]
  -- The chains hold dominators only, so the second pass changes no link.
  have unchanged : second.changed = false := by
    rw [Bool.eq_false_iff]
    intro secondChanged
    obtain ⟨index, different⟩ := changedAgain.mp secondChanged
    refine different ?_
    by_cases inside : index ≤ (host.indexGraph 0 seed).root
    · refine again.link?_eq_of_dominates inside
        (sweeping.visited (Nat.zero_le index) inside) ?_
      intro target member
      refine IndexGraph.ResolvedUpTo.dominates settling.resolved ?_ member
      intro nodes noRepetition path
      rw [toDominators.retreats_eq_zero path noRepetition, firstPasses]
      exact Nat.zero_lt_one
    · rw [again.rooted.link?_of_lt (Nat.lt_of_not_le inside),
        sweeping.rooted.link?_of_lt (Nat.lt_of_not_le inside)]
  refine ⟨second, ?_,
    settling.of_sweeping firstChanged morePasses sameOrder again changedAgain, unchanged,
    secondPasses⟩
  have ended : (start seed).settle? host limit 3 = some (.ok second) := by
    have firstAllowed : (start seed).reachesLimit limit = none :=
      reachesLimit_eq_none fun bound isLimit =>
        Nat.lt_of_lt_of_le Nat.zero_lt_two (highLimit bound isLimit)
    have secondAllowed : first.reachesLimit limit = none := by
      refine reachesLimit_eq_none fun bound isLimit => ?_
      rw [firstPasses]
      exact highLimit bound isLimit
    have startChanged : (start seed).changed = true := rfl
    simp only [settle?, startChanged, firstAllowed, passed, firstChanged, secondAllowed,
      passedAgain, unchanged, ↓reduceIte, Bool.false_eq_true]
  exact settle?_mono ended enough

end Progress

namespace FlowGraph

variable {graph : FlowGraph} {edges : List (Nat × Nat)} {config : BuildConfig}
  {seed : DominatorTree}

/-- An edge that does not lead to a dominator of its source. -/
def Onward (graph : FlowGraph) (source target : Address) : Prop :=
  graph.Edge source target ∧ ¬ OnEveryPath graph.Edge graph.entry target source

/-- Without the edges that lead to a dominator of their source there is no cycle. -/
def Reducible (graph : FlowGraph) : Prop :=
  ∀ node, ¬ Relation.TransGen graph.Onward node node

/-- Edges between indices are edges between the positions that have them. -/
theorem Records.indexGraph_edge_iff
    (records : graph.Records edges)
    (seeded : graph.numbered.host.SeededBy seed)
    {source target : Nat} :
    (graph.numbered.host.indexGraph 0 seed).Edge source target ↔
      target < (graph.numbered.host.indexGraph 0 seed).root ∧
        ∃ first second,
          graph.numbering[source]? = some first ∧
            graph.numbering[target]? = some second ∧ graph.digraph.Edge first second := by
  refine and_congr_right fun below => ?_
  rw [seeded.mem_sources_iff, predecessors_host_numbered]
  have targetStands := seeded.address?_blockAt (Nat.le_of_lt below)
  constructor
  · rintro ⟨predecessor, named, stands⟩
    obtain ⟨first, second, firstStands, secondStands, isEdge⟩ :=
      records.mem_predecessors_iff.mp named
    obtain ⟨position, numbered, isPredecessor⟩ :=
      holds_numbered_iff.mp (seeded.holds_iff.mpr stands)
    obtain rfl := records.distinct position first predecessor isPredecessor firstStands
    obtain ⟨position, targetNumbered, isTarget⟩ :=
      holds_numbered_iff.mp (seeded.holds_iff.mpr targetStands)
    obtain rfl := records.distinct position second _ isTarget secondStands
    exact ⟨_, _, numbered, targetNumbered, records.digraph_edge_iff.mpr isEdge⟩
  · rintro ⟨first, second, numbered, targetNumbered, edge⟩
    have isEdge := records.digraph_edge_iff.mp edge
    obtain ⟨firstInside, secondInside⟩ := records.inside _ isEdge
    obtain ⟨predecessor, firstStands⟩ := exists_addressAt?_iff.mpr firstInside
    obtain ⟨address, secondStands⟩ := exists_addressAt?_iff.mpr secondInside
    have addressStands : seed.address? target = some address :=
      seeded.holds_iff.mp (holds_numbered_iff.mpr ⟨second, targetNumbered, secondStands⟩)
    refine ⟨predecessor, ?_,
      seeded.holds_iff.mp (holds_numbered_iff.mpr ⟨first, numbered, firstStands⟩)⟩
    rw [DominatorTree.blockAt_eq addressStands]
    exact records.mem_predecessors_iff.mpr ⟨first, second, firstStands, secondStands, isEdge⟩

/-- The walk came down from the target of an edge that retreats to its source. -/
theorem Records.reaches_falls
    (records : graph.Records edges)
    (seeded : graph.numbered.host.SeededBy seed)
    (noneUnreached : graph.unreachableCount = 0)
    {source target : Nat}
    (edge : (graph.numbered.host.indexGraph 0 seed).Edge source target)
    (retreats : source < target) :
    Reaches (graph.numbered.host.indexGraph 0 seed).Falls target source := by
  have numbering_eq : graph.numbering = graph.digraph.postorder 0 := by
    rw [numbering, List.eq_nil_of_length_eq_zero noneUnreached, List.nil_append, reached]
  have once := graph.nodup_numbering
  have indexOf
      {index position : Nat}
      (stands : graph.numbering[index]? = some position) :
      graph.numbering.idxOf position = index := by
    obtain ⟨inside, isPosition⟩ := List.getElem?_eq_some_iff.mp stands
    exact isPosition ▸ once.idxOf_getElem index inside
  obtain ⟨_, first, second, firstStands, secondStands, positionEdge⟩ :=
    (records.indexGraph_edge_iff seeded).mp edge
  have visited : first ∈ graph.digraph.postorder 0 :=
    numbering_eq ▸ List.mem_of_getElem? firstStands
  rcases Digraph.inOrder_postorder visited positionEdge with earlier | ⟨nodes, path⟩
  · rw [← numbering_eq] at earlier
    have lower := Digraph.idxOf_lt_of_sublist once earlier
    rw [indexOf firstStands, indexOf secondStands] at lower
    exact absurd lower (Nat.lt_asymm retreats)
  · rw [← numbering_eq] at path
    have keeps :
        ∀ last next,
          graph.digraph.Descends graph.numbering last next →
          (graph.numbered.host.indexGraph 0 seed).Falls
            (graph.numbering.idxOf last) (graph.numbering.idxOf next) := by
      rintro last next ⟨step, earlier⟩
      have lower := Digraph.idxOf_lt_of_sublist once earlier
      have lastStands := List.getElem?_idxOf (earlier.subset (by simp : last ∈ [next, last]))
      have nextStands := List.getElem?_idxOf (earlier.subset (by simp : next ∈ [next, last]))
      have lastInside :
          graph.numbering.idxOf last ≤ (graph.numbered.host.indexGraph 0 seed).root := by
        obtain ⟨address, isAddress⟩ :=
          exists_addressAt?_iff.mpr (mem_numbering_iff.mp (List.mem_of_getElem? lastStands))
        exact seeded.le_root_of_address?
          (seeded.holds_iff.mp (holds_numbered_iff.mpr ⟨last, lastStands, isAddress⟩))
      refine ⟨(records.indexGraph_edge_iff seeded).mpr ⟨?_, ?_⟩, lower⟩
      · exact Nat.lt_of_lt_of_le lower lastInside
      · exact ⟨last, next, lastStands, nextStands, step⟩
    have renamed := path.map graph.numbering.idxOf keeps
    rw [indexOf firstStands, indexOf secondStands] at renamed
    exact ⟨_, renamed⟩

/-- An index edge that goes on is an edge between blocks that goes on. -/
theorem Records.onward_blockAt
    (records : graph.Records edges)
    (seeded : graph.numbered.host.SeededBy seed)
    (noneUnreached : graph.unreachableCount = 0)
    {source target : Nat}
    (onward : (graph.numbered.host.indexGraph 0 seed).Onward source target) :
    graph.Onward (seed.blockAt source) (seed.blockAt target) := by
  obtain ⟨⟨below, isSource⟩, notDominator⟩ := onward
  have sourceStands :=
    seeded.address?_blockAt ((graph.numbered.host.indexGraph 0 seed).inside _ _ isSource)
  have targetStands := seeded.address?_blockAt (Nat.le_of_lt below)
  have resolvable :=
    seeded.resolvable_of_not_bad (records.not_bad_of_noneUnreached noneUnreached)
  constructor
  · obtain ⟨predecessor, named, stands⟩ := seeded.mem_sources_iff.mp isSource
    rw [DominatorTree.blockAt_eq stands]
    rw [predecessors_host_numbered, records.mem_predecessors_iff_mem_successors] at named
    exact named
  · rw [← records.onEveryPath_host_iff, ← seeded.dominates_iff resolvable sourceStands targetStands]
    exact notDominator

/-- In a reducible graph edges retreat to dominators only. -/
theorem Records.retreatsToDominators
    (records : graph.Records edges)
    (seeded : graph.numbered.host.SeededBy seed)
    (noneUnreached : graph.unreachableCount = 0)
    (reducible : graph.Reducible) :
    (graph.numbered.host.indexGraph 0 seed).RetreatsToDominators := by
  have resolvable :=
    seeded.resolvable_of_not_bad (records.not_bad_of_noneUnreached noneUnreached)
  refine IndexGraph.retreatsToDominators (fun index below => (resolvable index below).2) ?_ ?_
  · intro index cycle
    refine reducible (seed.blockAt index) ?_
    exact cycle.lift seed.blockAt fun _ _ onward =>
      records.onward_blockAt seeded noneUnreached onward
  · intro source target edge retreats
    exact records.reaches_falls seeded noneUnreached edge retreats

/-- If a path leads to every block, the walk leaves out none. -/
theorem Records.unreachableCount_eq_zero
    (records : graph.Records edges)
    (allReached :
      ∀ node, graph.contains node = true → Reaches graph.Edge graph.entry node) :
    graph.unreachableCount = 0 := by
  rw [← length_unreachedAddresses, List.length_eq_zero_iff, List.eq_nil_iff_forall_not_mem]
  intro node member
  obtain ⟨known, notReached⟩ := records.mem_unreachedAddresses_iff.mp member
  exact notReached (allReached node known)

/-- Three rounds are always made if two passes are allowed. -/
theorem three_le_sufficientRounds
    (graph : FlowGraph)
    (highLimit : ∀ limit, config.maxPasses = some limit → 2 ≤ limit) :
    3 ≤ graph.host.sufficientRounds 0 config.maxPasses := by
  cases isLimit : config.maxPasses with
  | some limit => exact Nat.succ_le_succ (highLimit limit isLimit)
  | none =>
      have positive : 0 < Nat.pow (graph.host.nodes.length + 1) graph.host.nodes.length :=
        Nat.pow_pos (Nat.succ_pos _)
      rw [Host.sufficientRounds]
      omega

/--
One productive pass is enough for a reducible graph: the second one finds nothing to
change, in whatever order blocks and edges were added.
-/
theorem passes_eq_two_of_reducible
    (constructible : graph.Constructible)
    (several : 2 ≤ graph.size)
    (allReached :
      ∀ node, graph.contains node = true → Reaches graph.Edge graph.entry node)
    (reducible : graph.Reducible)
    (highLimit : ∀ limit, config.maxPasses = some limit → 2 ≤ limit) :
    ∃ outcome tree,
      graph.number.value.build? config = some outcome ∧
        outcome.result = .ok tree ∧ tree.passes = 2 := by
  obtain ⟨edges, records⟩ := constructible.exists_records
  have noneUnreached := records.unreachableCount_eq_zero allReached
  obtain ⟨seed, accepted⟩ := records.exists_index
  have seeded := Host.seededBy_of_index accepted
  have root_eq : (graph.numbered.host.indexGraph 0 seed).root = graph.size - 1 := by
    rw [seeded.root_eq]
    exact congrArg (· - 1) (size_numbered graph)
  obtain ⟨final, ended, settling, unchanged, passes_eq⟩ :=
    Progress.settle?_twice graph.numbered.settlesAt_zero
      (seeded.resolvable_of_not_bad (records.not_bad_of_noneUnreached noneUnreached))
      (seeded.seed_rooted 0) (seeded.root_eq 0 ▸ seeded.unlinked)
      (records.retreatsToDominators seeded noneUnreached reducible)
      (by omega) highLimit (three_le_sufficientRounds graph.numbered highLimit)
  have describes := settling.describes unchanged
  refine ⟨final.outcome config, final.finished, ?_,
    Progress.outcome_result config describes.rooted describes.complete, passes_eq⟩
  simp only [number, build?, Host.build?, accepted, ended]

/-- A rank that grows along all edges that go on shows that a graph is reducible. -/
theorem reducible_of_rank
    (rank : Address → Nat)
    (grows : ∀ source target, graph.Onward source target → rank source < rank target) :
    graph.Reducible := by
  intro node cycle
  have increases : Relation.TransGen (· < ·) (rank node) (rank node) := cycle.lift rank grows
  rw [Relation.transGen_eq_self] at increases
  exact Nat.lt_irrefl (rank node) increases

theorem mem_nodes_of_edge
    {source target : Address}
    (edge : graph.Edge source target) :
    source ∈ graph.nodes.map Node.address := by
  rw [Edge, successors] at edge
  cases found : graph.block? source with
  | none => simp [found] at edge
  | some block =>
      have isSource := Array.find?_some found
      have member := Array.mem_of_find?_eq_some found
      refine List.mem_map.mpr ⟨block.toNode, ?_, by simpa using isSource⟩
      exact List.mem_map.mpr ⟨block, Array.mem_toList_iff.mpr member, rfl⟩

/-- A loop with one way in, whose body was added before its head. -/
def headedLoop : FlowGraph :=
  after ⟨1⟩
    [.addBlock ⟨3⟩, .addBlock ⟨2⟩, .addBlock ⟨4⟩, .addEdge ⟨3⟩ ⟨2⟩, .addEdge ⟨2⟩ ⟨3⟩,
      .addEdge ⟨3⟩ ⟨4⟩, .addEdge ⟨1⟩ ⟨2⟩]

/-- The head of the loop dominates its body, and the only other edges lead on. -/
theorem reducible_headedLoop : headedLoop.Reducible := by
  have backToHead :
      ∀ source ∈ headedLoop.nodes.map Node.address,
        ∀ target ∈ headedLoop.successors source,
          (source = ⟨3⟩ ∧ target = ⟨2⟩) ∨ source.value < target.value := by
    decide +kernel
  have onlyHead :
      ∀ source ∈ headedLoop.nodes.map Node.address,
        ⟨3⟩ ∈ headedLoop.successors source → source = ⟨2⟩ := by
    decide +kernel
  have headDominates : OnEveryPath headedLoop.Edge headedLoop.entry ⟨2⟩ ⟨3⟩ := by
    refine OnEveryPath.of_onlySource (by decide +kernel) ?_
    intro source edge
    exact onlyHead source (mem_nodes_of_edge edge) edge
  refine reducible_of_rank (fun address => address.value.toNat) ?_
  rintro source target ⟨edge, notDominator⟩
  rcases backToHead source (mem_nodes_of_edge edge) target edge with ⟨rfl, rfl⟩ | higher
  · exact absurd headDominates notDominator
  · exact UInt64.lt_iff_toNat_lt.mp higher

/-- The loop takes two passes although the numbering has a retreating edge. -/
theorem passes_eq_two_headedLoop :
    headedLoop.Reducible ∧
      ∃ outcome tree,
        headedLoop.number.value.build? .fast = some outcome ∧
          outcome.result = .ok tree ∧ tree.passes = 2 := by
  have constructible : headedLoop.Constructible := ⟨_, _, rfl⟩
  obtain ⟨edges, records⟩ := constructible.exists_records
  have noneUnreached : headedLoop.unreachableCount = 0 := by decide +kernel
  refine ⟨reducible_headedLoop, ?_⟩
  exact passes_eq_two_of_reducible constructible (by decide +kernel)
    (fun _ known => records.reaches_of_noneUnreached noneUnreached known) reducible_headedLoop
    (by intro limit isLimit; cases isLimit)

end FlowGraph

end Dominance
