import Dominance.Command.Run
import Dominance.Proofs.Answers
import Dominance.Proofs.Numbering

namespace Dominance.FlowGraph

/-!
# Dominator trees of flow graphs

A numbered flow graph is a host on which a build succeeds exactly if the entry
reaches all blocks.  The tree then describes dominance along the edges of the graph.
Otherwise the block that was added last among those that the entry does not reach
is reported.
-/

variable {graph : FlowGraph} {edges : List (Nat × Nat)} {config : BuildConfig}

/-- If no block is left out the entry reaches all of them. -/
theorem Records.reaches_of_noneUnreached
    (records : graph.Records edges)
    (noneUnreached : graph.unreachableCount = 0)
    {address : Address}
    (known : graph.contains address = true) :
    Reaches graph.Edge graph.entry address := by
  obtain ⟨position, found⟩ := Option.isSome_iff_exists.mp known
  have stands := addressAt?_of_position? found
  rw [← records.mem_reached_iff_reaches stands]
  by_contra notReached
  have isUnreached : position ∈ graph.unreached :=
    mem_unreached_iff.mpr ⟨exists_addressAt?_iff.mp ⟨_, stands⟩, notReached⟩
  rw [List.eq_nil_of_length_eq_zero noneUnreached] at isUnreached
  cases isUnreached

/-- If the walk leaves out no block, then none is bad. -/
theorem Records.not_bad_of_noneUnreached
    (records : graph.Records edges)
    (noneUnreached : graph.unreachableCount = 0) :
    ∀ index, ¬ graph.numbered.host.Bad index := by
  intro index bad
  have := records.lt_unreachableCount_of_bad bad
  omega

/-- Edges that the host leaves out do not matter for dominance. -/
theorem Records.onEveryPath_host_iff
    (records : graph.Records edges)
    {dominator node : Address} :
    OnEveryPath graph.numbered.host.Edge graph.numbered.host.entry dominator node ↔
      OnEveryPath graph.Edge graph.entry dominator node := by
  have edge_eq :
      graph.numbered.host.Edge = fun last next => next ≠ graph.entry ∧ graph.Edge last next := by
    funext last next
    rw [Host.Edge, entry_host_numbered, predecessors_host_numbered,
      records.mem_predecessors_iff_mem_successors]
    rfl
  rw [edge_eq, entry_host_numbered]
  exact OnEveryPath.noReturn_iff

theorem lists_of_contains
    {address : Address}
    (known : graph.contains address = true) :
    graph.numbered.host.Lists address := by
  obtain ⟨position, found⟩ := Option.isSome_iff_exists.mp known
  exact lists_numbered_iff.mpr ⟨position, addressAt?_of_position? found⟩

/-- Enough rounds are made for every tree to be finished. -/
theorem size_lt_sufficientRounds
    (graph : FlowGraph)
    (highLimit : ∀ limit, config.maxPasses = some limit → graph.size ≤ limit) :
    graph.host.size + 1 ≤ graph.host.sufficientRounds 0 config.maxPasses := by
  cases isLimit : config.maxPasses with
  | some limit => exact Nat.succ_le_succ (highLimit limit isLimit)
  | none =>
      have length_eq : graph.host.nodes.length = graph.size := by
        simp [host, nodes, size]
      have power : graph.size + 1 ≤ (graph.size + 1) ^ graph.size :=
        Nat.le_self_pow (Nat.ne_of_gt graph.nonempty) _
      rw [Host.sufficientRounds, length_eq]
      show graph.size + 1 ≤ 0 + (graph.size + 1) ^ graph.size + 2
      omega

/-- A build on a graph whose entry reaches all blocks ends with an exact tree. -/
theorem Records.build?_of_noneUnreached
    (records : graph.Records edges)
    (noneUnreached : graph.unreachableCount = 0)
    (highLimit : ∀ limit, config.maxPasses = some limit → graph.size ≤ limit) :
    ∃ outcome tree seed,
      graph.numbered.host.index = .ok seed ∧
        graph.numbered.build? config = some outcome ∧
          outcome.result = .ok tree ∧
            tree.passes ≤ graph.size ∧
              tree.order = seed.order ∧
                (graph.numbered.host.indexGraph 0 seed).Describes tree := by
  obtain ⟨seed, accepted⟩ := records.exists_index
  rw [← size_numbered] at highLimit ⊢
  obtain ⟨outcome, tree, ended, isTree, fewPasses, sameOrder, describes⟩ :=
    Host.build?_of_not_bad graph.numbered.settlesAt_zero accepted
      (records.not_bad_of_noneUnreached noneUnreached) highLimit
      (size_lt_sufficientRounds graph.numbered highLimit)
  exact ⟨outcome, tree, seed, accepted, ended, isTree, fewPasses, sameOrder, describes⟩

/--
The dominator tree of a graph whose entry reaches all blocks describes dominance
along its edges.
-/
theorem build?_eq_dominance
    {graph : FlowGraph}
    {config : BuildConfig}
    (constructible : graph.Constructible)
    (noneUnreached : graph.unreachableCount = 0)
    (unlimited : config.maxPasses = none) :
    ∃ outcome tree,
      graph.numbered.build? config = some outcome ∧
        outcome.result = .ok tree ∧
          tree.size = graph.size ∧
            (∀ node, graph.contains node = true → Reaches graph.Edge graph.entry node) ∧
              (∀ dominator node,
                graph.contains node = true →
                (tree.dominates dominator node = true ↔
                  OnEveryPath graph.Edge graph.entry dominator node)) ∧
                tree.immediateDominator graph.entry = .ok none ∧
                  ∀ node,
                    graph.contains node = true →
                    node ≠ graph.entry →
                    ∃ nearest,
                      tree.immediateDominator node = .ok (some nearest) ∧
                        IsImmediateDominator graph.Edge graph.entry nearest node := by
  obtain ⟨edges, records⟩ := constructible.exists_records
  obtain ⟨outcome, tree, seed, accepted, ended, isTree, _, sameOrder, describes⟩ :=
    records.build?_of_noneUnreached noneUnreached fun limit isLimit => by
      rw [unlimited] at isLimit
      cases isLimit
  have seeded := Host.seededBy_of_index accepted
  have noneBad := records.not_bad_of_noneUnreached noneUnreached
  refine ⟨outcome, tree, ended, isTree, ?_, ?_, ?_, ?_, ?_⟩
  · rw [DominatorTree.size, sameOrder]
    exact seeded.size_eq.trans (size_numbered graph)
  · intro node known
    exact records.reaches_of_noneUnreached noneUnreached known
  · intro dominator node known
    rw [← records.onEveryPath_host_iff]
    exact seeded.dominates_eq_true_iff noneBad sameOrder describes (lists_of_contains known)
  · rw [← entry_host_numbered]
    exact seeded.immediateDominator_entry sameOrder describes
  · intro node known notEntry
    rw [← entry_host_numbered] at notEntry
    obtain ⟨nearest, answered, different, dominates, isNearest⟩ :=
      seeded.exists_immediateDominator noneBad sameOrder describes
        (lists_of_contains known) notEntry
    simp only [records.onEveryPath_host_iff] at dominates isNearest
    exact ⟨nearest, answered, different, dominates, isNearest⟩

/-- A loop that is entered at both its blocks, a block behind it, and what more is called for. -/
def sharedLoop (more : List Call) : FlowGraph :=
  after ⟨1⟩
    ([.addBlock ⟨2⟩, .addBlock ⟨3⟩, .addBlock ⟨4⟩, .addEdge ⟨1⟩ ⟨2⟩, .addEdge ⟨1⟩ ⟨3⟩,
      .addEdge ⟨2⟩ ⟨3⟩, .addEdge ⟨3⟩ ⟨2⟩, .addEdge ⟨2⟩ ⟨4⟩] ++ more)

/-- The loop after a call that fails and a call that gives an index by hand. -/
def disturbedLoop : FlowGraph :=
  sharedLoop [.addEdge ⟨4⟩ ⟨5⟩, .setPostorder ⟨2⟩ 7]

/-- The block behind the loop has an immediate dominator. -/
theorem build?_eq_dominance_disturbedLoop :
    ∃ outcome tree,
      disturbedLoop.numbered.build? .strict = some outcome ∧
        outcome.result = .ok tree ∧
          tree.size = 4 ∧
            ∃ nearest,
              tree.immediateDominator ⟨4⟩ = .ok (some nearest) ∧
                IsImmediateDominator disturbedLoop.Edge disturbedLoop.entry nearest ⟨4⟩ := by
  obtain ⟨outcome, tree, ended, isTree, size_eq, _, _, _, nearest⟩ :=
    build?_eq_dominance (⟨_, _, rfl⟩ : disturbedLoop.Constructible) (by decide +kernel)
      (rfl : BuildConfig.strict.maxPasses = none)
  exact ⟨outcome, tree, ended, isTree, size_eq.trans (by decide +kernel),
    nearest ⟨4⟩ (by decide +kernel) (by decide +kernel)⟩

/--
A build without bad blocks ends with a tree after no more passes than there are
blocks, and so does one on a graph whose entry reaches all blocks.
-/
theorem passes_le_size :
    (∀ (host : Host) (config : BuildConfig) (seed : DominatorTree),
      host.SettlesAt 0 →
      host.index = .ok seed →
      (∀ index, ¬ host.Bad index) →
      (∀ limit, config.maxPasses = some limit → host.size ≤ limit) →
      (∃ outcome, host.Yields config outcome) ∧
        ∀ outcome,
          host.Yields config outcome →
          (∀ limit, outcome.result ≠ .error (.passLimit limit)) ∧
            ∃ tree, outcome.result = .ok tree ∧ tree.passes ≤ host.size) ∧
    ∀ (graph : FlowGraph) (config : BuildConfig),
      graph.Constructible →
      graph.unreachableCount = 0 →
      (∀ limit, config.maxPasses = some limit → graph.size ≤ limit) →
      ∃ outcome tree,
        graph.numbered.build? config = some outcome ∧
          outcome.result = .ok tree ∧ tree.passes ≤ graph.size := by
  constructor
  · intro host config seed settled accepted noneBad highLimit
    obtain ⟨outcome, tree, ended, isTree, fewPasses, _⟩ :=
      Host.build?_of_not_bad settled accepted noneBad highLimit (Nat.le_refl (host.size + 1))
    refine ⟨⟨outcome, _, ended⟩, ?_⟩
    intro other yields
    rw [yields.unique ⟨_, ended⟩, isTree]
    exact ⟨fun limit isError => (nomatch isError), tree, rfl, fewPasses⟩
  · intro graph config constructible noneUnreached highLimit
    obtain ⟨edges, records⟩ := constructible.exists_records
    obtain ⟨outcome, tree, _, _, ended, isTree, fewPasses, _⟩ :=
      records.build?_of_noneUnreached noneUnreached highLimit
    exact ⟨outcome, tree, ended, isTree, fewPasses⟩

/-- Four passes are enough for the loop, and a limit of four is never used up. -/
theorem passes_le_size_sharedLoop :
    (∀ outcome limit,
      (sharedLoop []).numbered.host.Yields (BuildConfig.fast.withMaxPasses 4) outcome →
      outcome.result ≠ .error (.passLimit limit)) ∧
    ∃ outcome tree,
      (sharedLoop []).numbered.build? .fast = some outcome ∧
        outcome.result = .ok tree ∧ tree.passes ≤ 4 := by
  have constructible : (sharedLoop []).Constructible := ⟨_, _, rfl⟩
  have noneUnreached : (sharedLoop []).unreachableCount = 0 := by decide +kernel
  have size_eq : (sharedLoop []).numbered.size = 4 := by decide +kernel
  constructor
  · obtain ⟨edges, records⟩ := constructible.exists_records
    obtain ⟨seed, accepted⟩ := records.exists_index
    intro outcome limit yields
    refine ((passes_le_size.1 _ _ seed (sharedLoop []).numbered.settlesAt_zero accepted
      (records.not_bad_of_noneUnreached noneUnreached) ?_).2 outcome yields).1 limit
    rintro _ ⟨rfl⟩
    exact Nat.le_of_eq size_eq
  · obtain ⟨outcome, tree, ended, isTree, fewPasses⟩ :=
      passes_le_size.2 (sharedLoop []) .fast constructible noneUnreached
        (fun limit isLimit => (nomatch isLimit))
    exact ⟨outcome, tree, ended, isTree, by rwa [← size_numbered, size_eq] at fewPasses⟩

/-! ## Graphs with blocks that the entry does not reach -/

/-- A build on a graph with blocks that the entry does not reach blames the last of them. -/
theorem Records.build?_of_someUnreached
    (records : graph.Records edges)
    (someUnreached : 0 < graph.unreachableCount)
    (somePass : ∀ limit, config.maxPasses = some limit → 1 ≤ limit) :
    ∃ outcome,
      graph.numbered.build? config = some outcome ∧
        outcome.result = .error (.unresolvable (graph.unreachableCount - 1)) := by
  obtain ⟨seed, accepted⟩ := records.exists_index
  have bad := records.bad_of_unreachable someUnreached
  obtain ⟨address, holds⟩ := bad.exists_holds
  have complaint_eq :
      graph.numbered.host.complaint address (graph.unreachableCount - 1) =
        .unresolvable (graph.unreachableCount - 1) := by
    refine Host.complaint_of_listed ?_
    intro predecessor named
    rw [predecessors_host_numbered] at named
    exact records.lists_of_mem_predecessors named
  have enough : 1 ≤ graph.numbered.host.sufficientRounds 0 config.maxPasses := by
    cases config.maxPasses <;> exact Nat.succ_le_succ (Nat.zero_le _)
  rw [← complaint_eq]
  refine Host.build?_of_bad accepted holds bad ?_ somePass enough
  intro other otherBad
  have := records.lt_unreachableCount_of_bad otherBad
  omega

/-- The block with an index is found by it. -/
theorem blockAt?_numbered
    {address : Address}
    {index : Nat}
    (holds : graph.numbered.host.Holds address index) :
    Command.Request.blockAt? graph.numbered index = some address := by
  obtain ⟨position, stands, isAddress⟩ := holds_numbered_iff.mp holds
  cases found : graph.numbered.nodes.find? fun node => node.postorder = some index with
  | none =>
      have := List.find?_eq_none.mp found _ holds
      simp at this
  | some node =>
      have isIndex : node.postorder = some index := by simpa using List.find?_some found
      have nodeHolds : graph.numbered.host.Holds node.address index := by
        have member := List.mem_of_find?_eq_some found
        rw [Host.Holds, ← isIndex]
        exact member
      obtain ⟨other, otherStands, otherAddress⟩ := holds_numbered_iff.mp nodeHolds
      rw [stands, Option.some.injEq] at otherStands
      subst otherStands
      rw [Command.Request.blockAt?, found, ← isAddress, otherAddress]
      rfl

/--
If the entry does not reach all blocks a build names the index below their number.
It belongs to the block that was added last among them, and this is the block that
the command names.
-/
theorem build?_blames_last_unreached
    {graph : FlowGraph}
    (constructible : graph.Constructible)
    (someUnreached : 0 < graph.unreachableCount) :
    (∀ config : BuildConfig,
      (∀ limit, config.maxPasses = some limit → 1 ≤ limit) →
      ∃ outcome,
        graph.numbered.build? config = some outcome ∧
          outcome.result = .error (.unresolvable (graph.unreachableCount - 1))) ∧
    ∃ (position : Nat) (address : Address),
      graph.numbered.nodes[position]? =
          some ⟨address, some (graph.unreachableCount - 1)⟩ ∧
        ¬ Reaches graph.Edge graph.entry address ∧
          (∀ (later : Nat) (node : Node),
            position < later →
            graph.numbered.nodes[later]? = some node →
            Reaches graph.Edge graph.entry node.address) ∧
            ∀ request : Command.Request,
              (∀ limit, request.maxPasses = some limit → 1 ≤ limit) →
              ∃ error,
                (request.buildTree graph.numbered).value = .error error ∧
                  error.message =
                    s!"block {address} is not reachable from entry {graph.entry}" := by
  obtain ⟨edges, records⟩ := constructible.exists_records
  have fails
      (config : BuildConfig)
      (somePass : ∀ limit, config.maxPasses = some limit → 1 ≤ limit) :=
    records.build?_of_someUnreached someUnreached somePass
  refine ⟨fails, ?_⟩
  obtain ⟨position, stands, notReached, allLater⟩ := exists_last_unreached someUnreached
  obtain ⟨address, isAddress⟩ :=
    exists_addressAt?_iff.mpr (mem_numbering_iff.mp (List.mem_of_getElem? stands))
  refine ⟨position, address, ?_, ?_, ?_, ?_⟩
  · rw [getElem?_nodes_numbered, isAddress, idxOf?_numbering_eq_some_iff.mpr stands]
    rfl
  · rwa [← records.mem_reached_iff_reaches isAddress]
  · intro later node above isNode
    rw [getElem?_nodes_numbered, Option.map_eq_some_iff] at isNode
    obtain ⟨laterAddress, laterStands, rfl⟩ := isNode
    rw [← records.mem_reached_iff_reaches laterStands]
    exact allLater later above (exists_addressAt?_iff.mp ⟨_, laterStands⟩)
  · intro request somePass
    obtain ⟨outcome, ended, isError⟩ := fails request.buildConfig somePass
    have isBlock := blockAt?_numbered (holds_numbered_iff.mpr ⟨position, stands, isAddress⟩)
    refine ⟨.unreachable (some address) graph.entry
      (.unresolvable (graph.unreachableCount - 1)), ?_, rfl⟩
    simp only [Command.Request.buildTree, ended, isError, Command.Request.buildFailure, isBlock,
      entry_numbered]

/-- The loop, a second one that only leads to the first, and a block added after both. -/
def detachedLoop : FlowGraph :=
  sharedLoop
    [.addBlock ⟨5⟩, .addBlock ⟨6⟩, .addBlock ⟨7⟩, .addEdge ⟨5⟩ ⟨6⟩, .addEdge ⟨6⟩ ⟨5⟩,
      .addEdge ⟨6⟩ ⟨2⟩, .addEdge ⟨4⟩ ⟨7⟩]

/-- The last block of the second loop is blamed, although a block was added after it. -/
theorem build?_blames_last_unreached_detachedLoop :
    (∃ outcome,
      detachedLoop.numbered.build? (BuildConfig.strict.withMaxPasses 1) = some outcome ∧
        outcome.result = .error (.unresolvable 1)) ∧
    ∃ (position : Nat) (address : Address),
      detachedLoop.numbered.nodes[position]? = some ⟨address, some 1⟩ ∧
        ¬ Reaches detachedLoop.Edge detachedLoop.entry address := by
  have count_eq : detachedLoop.unreachableCount = 2 := by decide +kernel
  obtain ⟨fails, position, address, stands, notReached, _⟩ :=
    build?_blames_last_unreached (⟨_, _, rfl⟩ : detachedLoop.Constructible) (by omega)
  rw [count_eq] at stands
  refine ⟨?_, position, address, stands, notReached⟩
  have := fails (BuildConfig.strict.withMaxPasses 1) (by rintro _ ⟨rfl⟩; exact Nat.le_refl 1)
  rwa [count_eq] at this

end Dominance.FlowGraph
