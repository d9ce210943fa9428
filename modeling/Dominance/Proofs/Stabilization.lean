import Mathlib.Data.Fintype.Card
import Mathlib.Data.Fintype.Order
import Mathlib.Order.OrderIsoNat
import Dominance.Proofs.Convergence
import Dominance.Proofs.Relinking

namespace Dominance

/-!
# When passes over any tree come to rest

Passes that start with the links left over from other predecessors need not come to rest:
two retreating edges on one cycle can hand the links of two trees to each other for ever.
They do come to rest if the root reaches every index and no cycle retreats twice.

After as many passes as there are indices, chains hold only what lies on all paths to
their index.  Whatever is on the chain of an index then leads to it from above.  The
indices come to rest one after the other, an index after the higher ones that lead to it
and after those that it does not lead back to.  The predecessors that are left reach the
index by a retreating edge, and the index reaches them along edges to lower indices.
What their chains hold is on the chain of the index already, so the chain can only shrink
from pass to pass, and its link can only climb.
-/

namespace IndexGraph

variable {graph : IndexGraph} {trees : Nat → DominatorTree} {index time : Nat}

/-- No cycle without repetitions holds two edges that retreat. -/
def RetreatsOnce (graph : IndexGraph) : Prop :=
  ∀ source target nodes,
    graph.Edge source target →
    source < target →
    Path graph.Edge target source nodes →
    nodes.Nodup →
    retreats nodes = 0

/-- Passes over complete trees, one after the other without end. -/
structure Run (graph : IndexGraph) (trees : Nat → DominatorTree) : Prop where
  rooted : ∀ time, (trees time).Rooted graph.root
  complete : ∀ time, ∀ index ≤ graph.root, (trees time).isLinked index = true
  relinking : ∀ time, graph.Relinking (trees time) (trees (time + 1)) 0

/-! ## Chains and paths -/

/-- Links lead to what lies on all paths that have few nodes. -/
def LinksOnPaths (graph : IndexGraph) (tree : DominatorTree) (bound : Nat) : Prop :=
  ∀ index dominator nodes,
    Path graph.Edge graph.root index nodes →
    nodes.length ≤ bound →
    tree.link? index = some dominator →
    dominator ∈ nodes

/-- Chains that follow such links stay on these paths. -/
theorem LinksOnPaths.mem_of_mem_ascent
    {tree : DominatorTree}
    {bound target : Nat}
    {nodes : List Nat}
    (onPaths : graph.LinksOnPaths tree bound)
    (path : Path graph.Edge graph.root index nodes)
    (short : nodes.length ≤ bound)
    (member : target ∈ tree.ascent index) :
    target ∈ nodes := by
  fun_induction tree.ascent index generalizing nodes with
  | case1 index ends => exact List.mem_singleton.mp member ▸ path.node_mem
  | case2 index dominator climbs inductionHypothesis =>
      rcases List.mem_cons.mp member with isIndex | isAbove
      · exact isIndex ▸ path.node_mem
      · have recorded := (Option.filter_eq_some_iff.mp climbs).1
        obtain ⟨earlier, isSuffix, cutPath⟩ :=
          path.cut (onPaths index dominator nodes path short recorded)
        exact isSuffix.subset
          (inductionHypothesis cutPath (Nat.le_trans isSuffix.length_le short) isAbove)

/-- Links that lie on all short paths before and after a pass do so midway. -/
theorem Midway.linksOnPaths
    {before now midway : DominatorTree}
    {bound : Nat}
    (isMidway : graph.Midway before now index midway)
    (beforeOnPaths : graph.LinksOnPaths before bound)
    (nowOnPaths : graph.LinksOnPaths now bound) :
    graph.LinksOnPaths midway bound := by
  intro other dominator nodes path short recorded
  rw [isMidway.link?_eq] at recorded
  split at recorded
  · exact nowOnPaths other dominator nodes path short recorded
  · exact beforeOnPaths other dominator nodes path short recorded

/-- A pass extends what is known of links by one edge. -/
theorem Relinking.linksOnPaths_succ
    {before now : DominatorTree}
    {bound : Nat}
    (relinking : graph.Relinking before now 0)
    (complete : ∀ index ≤ graph.root, before.isLinked index = true)
    (beforeOnPaths : graph.LinksOnPaths before bound)
    (nowOnPaths : graph.LinksOnPaths now bound) :
    graph.LinksOnPaths now (bound + 1) := by
  intro index dominator nodes path short recorded
  cases path with
  | start =>
      rw [relinking.rooted.root_link, Option.some.injEq] at recorded
      exact List.mem_singleton.mpr recorded.symm
  | @extend last _ nodes path edge =>
      have shorter : nodes.length ≤ bound := Nat.le_of_succ_le_succ short
      refine List.mem_cons_of_mem index ?_
      by_cases loop : last = index
      · subst loop
        exact nowOnPaths last dominator nodes path shorter recorded
      · obtain ⟨midway, isMidway, mem_iff⟩ := relinking.exists_midway complete edge.1
        have higher := (relinking.rooted.climbs edge.1 recorded).1
        have climbs : now.climb? index = some dominator :=
          Option.filter_eq_some_iff.mpr ⟨recorded, decide_eq_true higher⟩
        have member :=
          DominatorTree.mem_ascent_of_climb climbs (now.self_mem_ascent dominator)
        rcases (mem_iff dominator).mp member with isIndex | onAll
        · exact absurd isIndex (Nat.ne_of_gt higher)
        · exact (isMidway.linksOnPaths beforeOnPaths nowOnPaths).mem_of_mem_ascent path shorter
            (onAll last (mem_others.mpr ⟨edge.2, loop⟩))

/-- After some passes links lead to what lies on all paths with no more nodes. -/
theorem Run.linksOnPaths
    (run : graph.Run trees)
    {bound : Nat}
    (late : bound ≤ time) :
    graph.LinksOnPaths (trees time) bound := by
  induction bound generalizing time with
  | zero =>
      intro index dominator nodes path short _
      rw [List.length_eq_zero_iff.mp (Nat.le_zero.mp short)] at path
      cases path
  | succ bound inductionHypothesis =>
      obtain ⟨earlier, rfl⟩ := Nat.exists_eq_add_of_le' (Nat.one_le_of_lt late)
      exact (run.relinking earlier).linksOnPaths_succ (run.complete earlier)
        (inductionHypothesis (Nat.le_of_succ_le_succ late))
        (inductionHypothesis (Nat.le_of_succ_le late))

/-- The members of a chain lead to its index. -/
theorem LinksOnPaths.reaches
    {tree : DominatorTree}
    {target : Nat}
    (reached : ∀ index ≤ graph.root, Reaches graph.Edge graph.root index)
    (onPaths : graph.LinksOnPaths tree (graph.root + 1))
    (inside : index ≤ graph.root)
    (member : target ∈ tree.ascent index) :
    Reaches graph.Edge target index := by
  obtain ⟨nodes, path⟩ := reached index inside
  obtain ⟨short, _, noRepetition, shortPath⟩ := path.exists_nodup
  exact shortPath.reaches_of_mem
    (onPaths.mem_of_mem_ascent shortPath (length_le_of_nodup shortPath noRepetition) member)

/-! ## The order in which indices come to rest -/

/-- An index that leads to another one and is higher or not reached from it. -/
def Precedes (graph : IndexGraph) (first second : Nat) : Prop :=
  Reaches graph.Edge first second ∧ (second < first ∨ ¬ Reaches graph.Edge second first)

theorem Precedes.irrefl (index : Nat) : ¬ graph.Precedes index index := by
  rintro ⟨_, higher | notReached⟩
  · exact Nat.lt_irrefl index higher
  · exact notReached ⟨_, .start⟩

theorem Precedes.trans
    {first second third : Nat}
    (upper : graph.Precedes first second)
    (lower : graph.Precedes second third) :
    graph.Precedes first third := by
  refine ⟨upper.1.trans lower.1, ?_⟩
  by_cases comesBack : Reaches graph.Edge third first
  · left
    rcases upper.2 with higher | notReached
    · rcases lower.2 with lowest | notReached
      · exact Nat.lt_trans lowest higher
      · exact absurd (comesBack.trans upper.1) notReached
    · exact absurd (lower.1.trans comesBack) notReached
  · exact .inr comesBack

/-- What precedes an index that is inside the graph is inside as well. -/
theorem Precedes.le_root
    {first second : Nat}
    (precedes : graph.Precedes first second)
    (inside : second ≤ graph.root) :
    first ≤ graph.root := by
  obtain ⟨nodes, path⟩ := precedes.1
  clear precedes
  induction path with
  | start => exact inside
  | @extend last next nodes path edge inductionHypothesis =>
      exact inductionHypothesis (graph.inside next last edge.2)

/-- Induction along the indices that precede one another. -/
theorem precedes_induction
    {motive : Nat → Prop}
    (step :
      ∀ index ≤ graph.root,
        (∀ other, graph.Precedes other index → motive other) →
        motive index) :
    ∀ index ≤ graph.root, motive index := by
  let relation (first second : Fin (graph.root + 1)) : Prop :=
    graph.Precedes first second
  have : IsTrans (Fin (graph.root + 1)) relation := ⟨fun _ _ _ => Precedes.trans⟩
  have : Std.Irrefl relation := ⟨fun index => Precedes.irrefl index.val⟩
  have wellFounded := Finite.wellFounded_of_trans_of_irrefl relation
  intro index inside
  refine wellFounded.induction (C := fun index => motive index.val)
    ⟨index, Nat.lt_succ_of_le inside⟩ ?_
  intro index inductionHypothesis
  have indexInside := Nat.le_of_lt_succ index.isLt
  refine step index indexInside ?_
  intro other precedes
  exact inductionHypothesis ⟨other, Nat.lt_succ_of_le (precedes.le_root indexInside)⟩ precedes

/-! ## One more index comes to rest -/

/-- The link of an index is the same after the next pass. -/
def Rests (trees : Nat → DominatorTree) (index time : Nat) : Prop :=
  (trees (time + 1)).link? index = (trees time).link? index

/-- The index to which an index is linked at some time. -/
def linkAt (trees : Nat → DominatorTree) (index time : Nat) : Nat :=
  ((trees time).link? index).getD 0

/-- Every index is linked at every time of a run. -/
theorem Run.link?_eq_linkAt
    (run : graph.Run trees)
    (inside : index ≤ graph.root)
    (time : Nat) :
    (trees time).link? index = some (linkAt trees index time) := by
  obtain ⟨dominator, recorded⟩ :=
    DominatorTree.isLinked_iff.mp (run.complete time index inside)
  rw [linkAt, recorded, Option.getD_some]

/-- If all higher indices that lead to it rest, a chain follows the chains before the pass. -/
theorem Run.mem_ascent_succ_iff
    (run : graph.Run trees)
    (reached : ∀ index ≤ graph.root, Reaches graph.Edge graph.root index)
    (late : graph.root + 1 ≤ time)
    (below : index < graph.root)
    (rests : ∀ other, graph.Precedes other index → Rests trees other time)
    (target : Nat) :
    target ∈ (trees (time + 1)).ascent index ↔
      target = index ∨
        ∀ source ∈ graph.others index, target ∈ (trees time).ascent source := by
  obtain ⟨midway, isMidway, mem_iff⟩ :=
    (run.relinking time).exists_midway (run.complete time) below
  have onPaths : graph.LinksOnPaths midway (graph.root + 1) :=
    isMidway.linksOnPaths (run.linksOnPaths late)
      (run.linksOnPaths (Nat.le_succ_of_le late))
  rw [mem_iff target]
  refine or_congr_right (forall₂_congr fun source isOther => ?_)
  have edge : graph.Edge source index := ⟨below, (mem_others.mp isOther).1⟩
  have sameChain : (trees time).ascent source = midway.ascent source := by
    apply DominatorTree.ascent_eq_of_links
    intro member isMember
    rw [isMidway.link?_eq]
    split
    · rename_i higher
      have leads := onPaths.reaches reached (graph.inside index source edge.2) isMember
      exact (rests member ⟨leads.trans ⟨_, Path.start.extend edge⟩, .inl higher⟩).symm
    · rfl
  rw [sameChain]

/-- A path that does not retreat leads down, step by step. -/
theorem le_of_retreats_extend
    {start last next : Nat}
    {nodes : List Nat}
    (path : Path graph.Edge start last nodes)
    (neverRetreats : retreats (next :: nodes) = 0) :
    next ≤ last ∧ retreats nodes = 0 := by
  rw [retreats_extend path] at neverRetreats
  obtain ⟨forward, restForward⟩ := Nat.add_eq_zero_iff.mp neverRetreats
  refine ⟨?_, restForward⟩
  by_contra higher
  rw [if_pos (Nat.lt_of_not_le higher)] at forward
  cases forward

/-- A path that never retreats does not lead higher. -/
theorem le_of_retreats_eq_zero
    {start node : Nat}
    {nodes : List Nat}
    (path : Path graph.Edge start node nodes)
    (neverRetreats : retreats nodes = 0) :
    node ≤ start := by
  induction path with
  | start => exact Nat.le_refl start
  | extend path _ inductionHypothesis =>
      obtain ⟨lower, restForward⟩ := le_of_retreats_extend path neverRetreats
      exact Nat.le_trans lower (inductionHypothesis restForward)

/-- What a chain holds above an index is on the chain of the index, if it leads straight down. -/
theorem Run.mem_ascent_of_path
    {source target : Nat}
    {nodes : List Nat}
    (run : graph.Run trees)
    (path : Path graph.Edge index source nodes)
    (neverRetreats : retreats nodes = 0)
    (above : index < target)
    (member : target ∈ (trees (time + 1)).ascent source) :
    target ∈ (trees (time + 1)).ascent index := by
  induction path with
  | start => exact member
  | @extend last next nodes path edge inductionHypothesis =>
      obtain ⟨lower, restForward⟩ := le_of_retreats_extend path neverRetreats
      have lastBelow := Nat.lt_of_le_of_lt (le_of_retreats_eq_zero path restForward) above
      refine inductionHypothesis restForward ?_
      rcases Nat.lt_or_eq_of_le lower with isLower | same
      · exact (run.relinking time).forward (run.complete time) edge isLower member
          (Nat.ne_of_gt (Nat.lt_of_le_of_lt lower lastBelow))
      · exact same ▸ member

/-- Chains of indices that precede a resting one rest as a whole. -/
theorem Run.ascent_eq_of_rests
    {source : Nat}
    (run : graph.Run trees)
    (reached : ∀ index ≤ graph.root, Reaches graph.Edge graph.root index)
    (late : graph.root + 1 ≤ time)
    (inside : index ≤ graph.root)
    (precedes : graph.Precedes source index)
    (rests : ∀ other, graph.Precedes other index → Rests trees other time) :
    (trees (time + 1)).ascent source = (trees time).ascent source := by
  apply DominatorTree.ascent_eq_of_links
  intro member isMember
  refine rests member ?_
  rcases Nat.lt_or_eq_of_le (DominatorTree.le_of_mem_ascent isMember) with higher | isSource
  · have leads :=
      (run.linksOnPaths late).reaches reached (precedes.le_root inside) isMember
    exact Precedes.trans ⟨leads, .inl higher⟩ precedes
  · exact isSource ▸ precedes

/-- Once all that precedes it rests, a chain only shrinks. -/
theorem Run.mem_ascent_of_mem_succ
    {target : Nat}
    (run : graph.Run trees)
    (reached : ∀ index ≤ graph.root, Reaches graph.Edge graph.root index)
    (once : graph.RetreatsOnce)
    (late : graph.root + 1 ≤ time)
    (below : index < graph.root)
    (rests : ∀ other, graph.Precedes other index → Rests trees other time)
    (restsAgain : ∀ other, graph.Precedes other index → Rests trees other (time + 1))
    (member : target ∈ (trees (time + 2)).ascent index) :
    target ∈ (trees (time + 1)).ascent index := by
  have laterToo : graph.root + 1 ≤ time + 1 := Nat.le_succ_of_le late
  rcases (run.mem_ascent_succ_iff reached laterToo below restsAgain target).mp member with
    isIndex | onAll
  · exact isIndex ▸ (trees (time + 1)).self_mem_ascent index
  by_cases isIndex : target = index
  · exact isIndex ▸ (trees (time + 1)).self_mem_ascent index
  have above : index < target :=
    Nat.lt_of_le_of_ne (DominatorTree.le_of_mem_ascent member) (Ne.symm isIndex)
  by_cases comesBack :
      ∃ source ∈ graph.others index, source < index ∧ Reaches graph.Edge index source
  · -- The index leads straight down to a predecessor, whose chain has the target.
    obtain ⟨source, isOther, lower, nodes, path⟩ := comesBack
    obtain ⟨short, _, noRepetition, shortPath⟩ := path.exists_nodup
    have edge : graph.Edge source index := ⟨below, (mem_others.mp isOther).1⟩
    exact run.mem_ascent_of_path shortPath
      (once source index short edge lower shortPath noRepetition) above (onAll source isOther)
  · -- All predecessors precede the index, so their chains were the same before.
    refine (run.mem_ascent_succ_iff reached late below rests target).mpr (.inr ?_)
    intro source isOther
    have edge : graph.Edge source index := ⟨below, (mem_others.mp isOther).1⟩
    have precedes : graph.Precedes source index := by
      refine ⟨⟨_, Path.start.extend edge⟩, ?_⟩
      by_cases isBack : Reaches graph.Edge index source
      · left
        refine Nat.lt_of_le_of_ne (Nat.le_of_not_lt fun lower => ?_) (mem_others.mp isOther).2.symm
        exact comesBack ⟨source, isOther, lower, isBack⟩
      · exact .inr isBack
    rw [← run.ascent_eq_of_rests reached late (Nat.le_of_lt below) precedes rests]
    exact onAll source isOther

/-- The link of a chain that only shrinks can only climb. -/
theorem Run.linkAt_le_succ
    (run : graph.Run trees)
    (below : index < graph.root)
    (shrinks :
      ∀ target ∈ (trees (time + 1)).ascent index, target ∈ (trees time).ascent index) :
    linkAt trees index time ≤ linkAt trees index (time + 1) := by
  have inside := Nat.le_of_lt below
  obtain ⟨old, oldRecorded, oldClimbs, _⟩ :=
    (run.rooted time).exists_climb (run.complete time index inside) below
  obtain ⟨new, newRecorded, newClimbs, _⟩ :=
    (run.rooted (time + 1)).exists_climb (run.complete (time + 1) index inside) below
  rw [linkAt, linkAt, oldRecorded, newRecorded, Option.getD_some, Option.getD_some]
  have member := shrinks new
    (DominatorTree.mem_ascent_of_climb newClimbs ((trees (time + 1)).self_mem_ascent new))
  have different := Nat.ne_of_gt (DominatorTree.lt_of_climb?_eq_some newClimbs).2
  exact DominatorTree.le_of_mem_ascent
    (DominatorTree.mem_ascent_of_ne oldClimbs member different)

/-- Numbers that do not fall and do not pass a bound stay the same in the end. -/
theorem exists_rest_of_le
    {values : Nat → Nat}
    {bound first : Nat}
    (bounded : ∀ time, values time ≤ bound)
    (rises : ∀ time, first ≤ time → values time ≤ values (time + 1)) :
    ∃ last, ∀ time, last ≤ time → values (time + 1) = values time := by
  have rising : Monotone fun extra => values (first + extra) :=
    monotone_nat_of_le_succ fun extra => rises (first + extra) (Nat.le_add_right first extra)
  let chain : Nat →o Fin (bound + 1) :=
    ⟨fun extra => ⟨values (first + extra), Nat.lt_succ_of_le (bounded _)⟩, rising⟩
  obtain ⟨last, stays⟩ := WellFoundedGT.monotone_chain_condition chain
  refine ⟨first + last, ?_⟩
  intro time late
  obtain ⟨extra, rfl⟩ := Nat.exists_eq_add_of_le (Nat.le_of_add_right_le late)
  have lateEnough : last ≤ extra := Nat.le_of_add_le_add_left late
  have now := stays extra lateEnough
  have next := stays (extra + 1) (Nat.le_succ_of_le lateEnough)
  exact congrArg Fin.val (next.symm.trans now)

/-- What holds of each index from some time on holds of all of them from some time on. -/
theorem exists_common_time
    {root : Nat}
    {property : Nat → Nat → Prop}
    (each : ∀ index ≤ root, ∃ first, ∀ time, first ≤ time → property index time) :
    ∃ first, ∀ index ≤ root, ∀ time, first ≤ time → property index time := by
  choose since holds using each
  obtain ⟨first, isLast⟩ :=
    Finite.exists_le fun index : Fin (root + 1) => since index (Nat.le_of_lt_succ index.isLt)
  refine ⟨first, ?_⟩
  intro index inside time late
  exact holds index inside time
    (Nat.le_trans (isLast ⟨index, Nat.lt_succ_of_le inside⟩) late)

/-- An index comes to rest after all that precedes it. -/
theorem Run.exists_rest_of_precedes
    {first : Nat}
    (run : graph.Run trees)
    (reached : ∀ index ≤ graph.root, Reaches graph.Edge graph.root index)
    (once : graph.RetreatsOnce)
    (below : index < graph.root)
    (rests : ∀ other, graph.Precedes other index → ∀ time, first ≤ time → Rests trees other time) :
    ∃ last, ∀ time, last ≤ time → Rests trees index time := by
  have inside := Nat.le_of_lt below
  have bounded : ∀ time, linkAt trees index time ≤ graph.root := by
    intro time
    exact (run.rooted time).le_of_link? (run.link?_eq_linkAt inside time)
  have rises :
      ∀ time,
        max first (graph.root + 1) + 1 ≤ time →
        linkAt trees index time ≤ linkAt trees index (time + 1) := by
    intro time late
    obtain ⟨earlier, rfl⟩ := Nat.exists_eq_add_of_le' (Nat.one_le_of_lt late)
    have lateEnough := Nat.le_of_succ_le_succ late
    have isRest := Nat.le_trans (Nat.le_max_left _ _) lateEnough
    refine run.linkAt_le_succ below fun target member => ?_
    exact run.mem_ascent_of_mem_succ reached once
      (Nat.le_trans (Nat.le_max_right _ _) lateEnough) below
      (fun other precedes => rests other precedes earlier isRest)
      (fun other precedes => rests other precedes (earlier + 1) (Nat.le_succ_of_le isRest))
      member
  obtain ⟨last, stays⟩ := exists_rest_of_le bounded rises
  refine ⟨last, ?_⟩
  intro time late
  rw [Rests, run.link?_eq_linkAt inside, run.link?_eq_linkAt inside, stays time late]

/-- Every index comes to rest. -/
theorem Run.exists_rest
    (run : graph.Run trees)
    (reached : ∀ index ≤ graph.root, Reaches graph.Edge graph.root index)
    (once : graph.RetreatsOnce) :
    ∀ index ≤ graph.root, ∃ first, ∀ time, first ≤ time → Rests trees index time := by
  refine precedes_induction ?_
  intro index inside inductionHypothesis
  rcases Nat.lt_or_eq_of_le inside with below | isRoot
  · have othersRest :
        ∃ first, ∀ other ≤ graph.root, ∀ time,
          first ≤ time → graph.Precedes other index → Rests trees other time := by
      refine exists_common_time fun other _ => ?_
      by_cases precedes : graph.Precedes other index
      · obtain ⟨first, rests⟩ := inductionHypothesis other precedes
        exact ⟨first, fun time late _ => rests time late⟩
      · exact ⟨0, fun _ _ isBefore => absurd isBefore precedes⟩
    obtain ⟨first, rests⟩ := othersRest
    exact run.exists_rest_of_precedes reached once below fun other precedes time late =>
      rests other (precedes.le_root inside) time late precedes
  · subst isRoot
    refine ⟨0, fun time _ => ?_⟩
    rw [Rests, (run.rooted (time + 1)).root_link, (run.rooted time).root_link]

/-- Some pass changes nothing. -/
theorem Run.exists_unchanged
    (run : graph.Run trees)
    (reached : ∀ index ≤ graph.root, Reaches graph.Edge graph.root index)
    (once : graph.RetreatsOnce) :
    ∃ time, ∀ index, (trees (time + 1)).link? index = (trees time).link? index := by
  obtain ⟨time, rests⟩ := exists_common_time (run.exists_rest reached once)
  refine ⟨time, ?_⟩
  intro index
  by_cases inside : index ≤ graph.root
  · exact rests index inside time (Nat.le_refl time)
  · rw [(run.rooted (time + 1)).link?_of_lt (Nat.lt_of_not_le inside),
      (run.rooted time).link?_of_lt (Nat.lt_of_not_le inside)]

end IndexGraph

end Dominance
