import Dominance.Build.Run
import Dominance.Proofs.Numbering

namespace Dominance.FlowGraph

/-!
# Numberings are never stale

The postorder indices of a graph depend on its blocks and on the order of its edges, so
they have to go when a block or an edge is added.  Each call that gives no index by hand
therefore does one of three things: it leaves all of the graph alone, it removes all
indices, or it numbers the graph.  In consequence either no block carries an index, or
all of them carry the index that numbering the graph once more would give them.

A build notices the first case and reports it.  In the second it works on the numbering
that fits.
-/

variable {graph : FlowGraph}

/-! ## Numbering again -/

@[simp] theorem numbering_bare (graph : FlowGraph) :
    graph.bare.numbering = graph.numbering := by
  simp [numbering, unreached, reached]

/-- The indices that a graph had before do not matter for those that it is given. -/
@[simp] theorem numbered_bare (graph : FlowGraph) : graph.bare.numbered = graph.numbered := by
  simp only [numbered, numbering_bare, mk.injEq]
  refine ⟨?_, rfl⟩
  apply Array.ext_getElem?
  intro position
  rw [Array.getElem?_mapIdx, Array.getElem?_mapIdx, bare, Array.getElem?_map, Option.map_map]
  rfl

/-- Numbering a graph twice gives the same indices as numbering it once. -/
@[simp] theorem numbered_numbered (graph : FlowGraph) :
    graph.numbered.numbered = graph.numbered := by
  rw [← numbered_bare graph.numbered, bare_numbered, numbered_bare]

/-! ## What a call does to the indices -/

/-- No block carries a postorder index. -/
def Unnumbered (graph : FlowGraph) : Prop :=
  ∀ node ∈ graph.nodes, node.postorder = none

instance (graph : FlowGraph) : Decidable graph.Unnumbered :=
  inferInstanceAs (Decidable (∀ node ∈ graph.nodes, node.postorder = none))

/-- Every block carries the index that numbering the graph would give it now. -/
structure CurrentlyNumbered (graph : FlowGraph) : Prop where
  complete : ∀ node ∈ graph.nodes, node.postorder.isSome = true
  number_eq : graph.number.value = graph

theorem unnumbered_bare (graph : FlowGraph) : graph.bare.Unnumbered := by
  intro node member
  obtain ⟨block, isBlock, rfl⟩ := List.mem_map.mp member
  obtain ⟨_, _, rfl⟩ := Array.mem_map.mp (Array.mem_toList_iff.mp isBlock)
  rfl

theorem currentlyNumbered_numbered (graph : FlowGraph) : graph.numbered.CurrentlyNumbered where
  complete := by
    intro node member
    obtain ⟨index, _, isIndex, _⟩ := mem_nodes_numbered_iff.mp member
    rw [isIndex]
    rfl
  number_eq := numbered_numbered graph

/-- A new block comes without an index, and all others lose theirs. -/
theorem unnumbered_addBlock
    {address : Address}
    (isNew : graph.position? address = none) :
    (graph.addBlock address).1.Unnumbered := by
  intro node member
  obtain ⟨position, isNode⟩ := List.mem_iff_getElem?.mp member
  rw [nodes, List.getElem?_map, Array.getElem?_toList, getElem?_blocks_addBlock isNew] at isNode
  split at isNode
  · cases isNode
    rfl
  · refine graph.unnumbered_bare node (List.mem_iff_getElem?.mpr ⟨position, ?_⟩)
    rw [nodes, List.getElem?_map, Array.getElem?_toList]
    exact isNode

/-- Connecting two blocks removes all indices. -/
theorem unnumbered_connect
    (graph : FlowGraph)
    (source target : Nat) :
    (graph.connect source target).Unnumbered := by
  intro node member
  obtain ⟨position, isNode⟩ := List.mem_iff_getElem?.mp member
  rw [nodes, List.getElem?_map, Array.getElem?_toList, getElem?_blocks_connect, Option.map_map,
    Option.map_eq_some_iff] at isNode
  obtain ⟨_, _, rfl⟩ := isNode
  rfl

/-- A call that gives a block an index by hand. -/
def Call.IsManual : Call → Prop
  | .addBlock _ => False
  | .addEdge _ _ => False
  | .setPostorder _ _ => True
  | .number => False

instance : DecidablePred Call.IsManual
  | .addBlock _ => inferInstanceAs (Decidable False)
  | .addEdge _ _ => inferInstanceAs (Decidable False)
  | .setPostorder _ _ => inferInstanceAs (Decidable True)
  | .number => inferInstanceAs (Decidable False)

/-- All that a call can do to the indices, unless it gives one by hand. -/
theorem perform_cases
    (graph : FlowGraph)
    {call : Call}
    (notManual : ¬ call.IsManual) :
    graph.perform call = graph ∨
      (graph.perform call).Unnumbered ∨
        call = .number ∧ graph.perform call = graph.numbered := by
  cases call with
  | addBlock address =>
      cases found : graph.position? address with
      | some position =>
          left
          simp only [perform, addBlock, found]
      | none => exact .inr (.inl (unnumbered_addBlock found))
  | addEdge source target =>
      rcases graph.perform_addEdge_cases source target with unchanged | ⟨_, _, _, _, _, connected⟩
      · exact .inl unchanged
      · rw [connected]
        exact .inr (.inl (graph.unnumbered_connect _ _))
  | setPostorder address index => exact absurd trivial notManual
  | number => exact .inr (.inr ⟨rfl, rfl⟩)

/-- After calls that give no index by hand all indices are missing or fit. -/
theorem unnumbered_or_currentlyNumbered
    {calls : List Call}
    (noneManual : ∀ call ∈ calls, ¬ call.IsManual)
    (fits : graph.Unnumbered ∨ graph.CurrentlyNumbered) :
    (calls.foldl perform graph).Unnumbered ∨ (calls.foldl perform graph).CurrentlyNumbered := by
  induction calls generalizing graph with
  | nil => exact fits
  | cons call rest inductionHypothesis =>
      obtain ⟨notManual, restNotManual⟩ := List.forall_mem_cons.mp noneManual
      refine inductionHypothesis restNotManual ?_
      rcases graph.perform_cases notManual with unchanged | unnumbered | ⟨_, isNumbered⟩
      · rwa [unchanged]
      · exact .inl unnumbered
      · rw [isNumbered]
        exact .inr graph.currentlyNumbered_numbered

theorem unnumbered_new (entry : Address) : (new entry).Unnumbered := by
  intro node member
  rw [List.mem_singleton.mp member]

/-- As long as nothing numbers a graph no block carries an index. -/
theorem unnumbered_foldl
    {calls : List Call}
    (noneManual : ∀ call ∈ calls, ¬ call.IsManual)
    (noneNumbers : .number ∉ calls)
    (unnumbered : graph.Unnumbered) :
    (calls.foldl perform graph).Unnumbered := by
  induction calls generalizing graph with
  | nil => exact unnumbered
  | cons call rest inductionHypothesis =>
      obtain ⟨notManual, restNotManual⟩ := List.forall_mem_cons.mp noneManual
      obtain ⟨notNumber, restNotNumber⟩ := not_or.mp (mt List.mem_cons.mpr noneNumbers)
      refine inductionHypothesis restNotManual restNotNumber ?_
      rcases graph.perform_cases notManual with unchanged | isUnnumbered | ⟨isNumber, _⟩
      · rwa [unchanged]
      · exact isUnnumbered
      · exact absurd isNumber.symm notNumber

/-! ## What a build makes of it -/

/-- The entry is the first block that is listed. -/
theorem exists_nodes_eq_cons (graph : FlowGraph) :
    ∃ postorder rest, graph.nodes = ⟨graph.entry, postorder⟩ :: rest := by
  have isEntry : (graph.nodes.map Node.address)[0]? = some graph.entry := by
    rw [← addressAt?_zero]
    simp [nodes, addressAt?, Function.comp_def]
  cases listed : graph.nodes with
  | nil => simp [listed] at isEntry
  | cons node rest =>
      rw [listed] at isEntry
      have isFirst : node.address = graph.entry := by simpa using isEntry
      exact ⟨node.postorder, rest, by rw [← isFirst]⟩

/-- A build on a graph without indices reports that the entry has none. -/
theorem build?_of_unnumbered
    (unnumbered : graph.Unnumbered)
    (config : BuildConfig) :
    graph.build? config = some ⟨.error (.numbering (.missing graph.entry)), 0, []⟩ := by
  obtain ⟨postorder, rest, listed⟩ := graph.exists_nodes_eq_cons
  obtain rfl : postorder = none := unnumbered ⟨graph.entry, postorder⟩ (by simp [listed])
  have someBlock : graph.host.size ≠ 0 := Nat.ne_of_gt graph.nonempty
  have notTooLarge : ¬ graph.host.Overstates := by
    rintro ⟨fewNodes, _⟩
    simp [host, nodes, size] at fewNodes
  have refused : graph.host.order = .error (.missing graph.entry) := by
    have nodes_eq : graph.host.nodes = ⟨graph.entry, none⟩ :: rest := listed
    rw [Host.order, nodes_eq]
    rfl
  simp only [build?, Host.build?, Host.index, someBlock, notTooLarge, refused, if_false]

/--
A stale numbering never reaches a build.

After any calls that give no index by hand, also calls that fail or add nothing, either
no block carries an index, and every build fails because of that, or all blocks carry
the indices that numbering the graph again would give them.  Then numbering it again
changes nothing, and every build ends as it would after that.
-/
theorem after_never_stale
    (entry : Address)
    (calls : List Call)
    (noneManual : ∀ call ∈ calls, ¬ call.IsManual) :
    ((after entry calls).Unnumbered ∧
      ∀ config,
        ∃ outcome,
          (after entry calls).build? config = some outcome ∧
            outcome.result = .error (.numbering (.missing entry))) ∨
    ((after entry calls).CurrentlyNumbered ∧
      (after entry calls).number.value.number = (after entry calls).number ∧
        ∀ config,
          (after entry calls).build? config = (after entry calls).number.value.build? config) := by
  rcases unnumbered_or_currentlyNumbered noneManual (.inl (unnumbered_new entry)) with
      unnumbered | current
  · refine .inl ⟨unnumbered, fun config => ⟨_, build?_of_unnumbered unnumbered config, ?_⟩⟩
    rw [← after, entry_after]
  · refine .inr ⟨current, ?_, fun config => ?_⟩
    · rw [after, current.number_eq]
    · rw [after, current.number_eq]

/-- Two blocks that are numbered, and what is called for after that. -/
def numberedPair (more : List Call) : List Call :=
  [.addBlock ⟨2⟩, .addEdge ⟨1⟩ ⟨2⟩, .number] ++ more

/--
Adding an edge again, or one to an unknown block, keeps the numbering, and a build works
on it; adding an edge back removes it, and a build fails.
-/
theorem numberedPair_never_stale :
    (after ⟨1⟩ (numberedPair [.addEdge ⟨1⟩ ⟨2⟩, .addEdge ⟨2⟩ ⟨3⟩])).CurrentlyNumbered ∧
    ∃ outcome,
      (after ⟨1⟩ (numberedPair [.addEdge ⟨2⟩ ⟨1⟩])).build? .fast = some outcome ∧
        outcome.result = .error (.numbering (.missing ⟨1⟩)) := by
  constructor
  · rcases after_never_stale ⟨1⟩
        (numberedPair [.addEdge ⟨1⟩ ⟨2⟩, .addEdge ⟨2⟩ ⟨3⟩]) (by decide) with
        ⟨unnumbered, _⟩ | ⟨current, _⟩
    · exact absurd unnumbered (by decide +kernel)
    · exact current
  · rcases after_never_stale ⟨1⟩ (numberedPair [.addEdge ⟨2⟩ ⟨1⟩]) (by decide) with
        ⟨_, fails⟩ | ⟨current, _⟩
    · exact fails .fast
    · exact absurd current.complete (by decide +kernel)

end Dominance.FlowGraph
