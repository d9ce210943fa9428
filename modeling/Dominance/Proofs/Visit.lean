import Dominance.Proofs.Descent
import Dominance.Proofs.Lookup

namespace Dominance

/-!
# What a visit does

A visit asks the host for the predecessors of one block.  It fails at the first
of them that is unknown, or if none of them is linked.  Otherwise it records the
nearest index to those that are linked, provided that it is higher.  The lemmas of
this module say so for any rooted tree and any host.

The order of the predecessors and repetitions among them do not matter, because
the nearest index does not depend on them.
-/

namespace DominatorTree

/-- The address at an index, or the default address outside the tree. -/
def blockAt (tree : DominatorTree) (index : Nat) : Address :=
  (tree.address? index).getD default

/-- The index of an address depends on the order only. -/
theorem postorder?_congr
    {first second : DominatorTree}
    (sameOrder : first.order = second.order) :
    first.postorder? = second.postorder? := by
  funext address
  simp only [postorder?, size, sameOrder]

theorem blockAt_congr
    {first second : DominatorTree}
    (sameOrder : first.order = second.order) :
    first.blockAt = second.blockAt := by
  funext index
  simp only [blockAt, address?, sameOrder]

theorem contains_congr
    {first second : DominatorTree}
    (sameOrder : first.order = second.order) :
    first.contains = second.contains := by
  funext address
  rw [contains, postorder?_congr sameOrder, contains]

/-- Known predecessors are resolved in order, without the block itself. -/
theorem resolve_eq_ok
    {tree : DominatorTree}
    (block : Address)
    (index : Nat)
    {predecessors : List Address}
    (known : ∀ predecessor ∈ predecessors, tree.contains predecessor = true) :
    tree.resolve block index predecessors =
      .ok ((predecessors.filterMap tree.postorder?).filter (· ≠ index)) := by
  induction predecessors with
  | nil => rfl
  | cons predecessor rest inductionHypothesis =>
      obtain ⟨isKnown, restKnown⟩ := List.forall_mem_cons.mp known
      obtain ⟨found, isFound⟩ := Option.isSome_iff_exists.mp isKnown
      simp only [resolve, isFound, inductionHypothesis restKnown, List.filterMap_cons,
        List.filter_cons, decide_eq_true_eq]
      by_cases isBlock : found = index <;> simp [isBlock]

/-- The first unknown predecessor is reported. -/
theorem resolve_eq_error
    {tree : DominatorTree}
    (block : Address)
    (index : Nat)
    {unknown : Address}
    {predecessors : List Address}
    (isFirst :
      predecessors.find? (fun predecessor => !tree.contains predecessor) = some unknown) :
    tree.resolve block index predecessors = .error (.unknownPredecessor unknown block) := by
  induction predecessors with
  | nil => simp at isFirst
  | cons predecessor rest inductionHypothesis =>
      rw [List.find?_cons] at isFirst
      cases found : tree.postorder? predecessor with
      | none =>
          have isUnknown : tree.contains predecessor = false := by
            simp [contains, found]
          simp only [isUnknown, Bool.not_false, Option.some.injEq] at isFirst
          subst isFirst
          simp [resolve, found]
      | some index =>
          have isKnown : tree.contains predecessor = true := by
            simp [contains, found]
          simp only [isKnown, Bool.not_true] at isFirst
          simp [resolve, found, inductionHypothesis isFirst]

end DominatorTree

namespace Host

/-- The predecessors that a host names at some time, by postorder index. -/
def indexGraph (host : Host) (time : Nat) (tree : DominatorTree) : IndexGraph where
  root := tree.size - 1
  sources := fun index =>
    (host.predecessors time (tree.blockAt index)).filterMap tree.postorder?
  inside := by
    intro index source isSource
    obtain ⟨predecessor, _, found⟩ := List.mem_filterMap.mp isSource
    have := (DominatorTree.address?_of_postorder? found).1
    omega

/-- The host names only predecessors of a block that belong to the tree. -/
def KnowsPredecessors
    (host : Host)
    (time : Nat)
    (tree : DominatorTree)
    (index : Nat) : Prop :=
  ∀ predecessor ∈ host.predecessors time (tree.blockAt index),
    tree.contains predecessor = true

/-- A block that can be visited as soon as all higher blocks have been. -/
def Resolvable
    (host : Host)
    (time : Nat)
    (tree : DominatorTree)
    (index : Nat) : Prop :=
  host.KnowsPredecessors time tree index ∧ (host.indexGraph time tree).Supported index

/-- The index graph depends on the answers and on the addresses only. -/
theorem indexGraph_congr
    {host : Host}
    {firstTime secondTime : Nat}
    {first second : DominatorTree}
    (sameAnswers : host.predecessors firstTime = host.predecessors secondTime)
    (sameOrder : first.order = second.order) :
    host.indexGraph firstTime first = host.indexGraph secondTime second := by
  simp only [indexGraph, DominatorTree.size, sameOrder, sameAnswers,
    DominatorTree.blockAt_congr sameOrder, DominatorTree.postorder?_congr sameOrder]

/-- Whether all predecessors are known depends on the answers and on the order. -/
theorem knowsPredecessors_congr
    {host : Host}
    {firstTime secondTime : Nat}
    {first second : DominatorTree}
    (sameAnswers : host.predecessors firstTime = host.predecessors secondTime)
    (sameOrder : first.order = second.order) :
    host.KnowsPredecessors firstTime first = host.KnowsPredecessors secondTime second := by
  funext index
  rw [KnowsPredecessors, sameAnswers, DominatorTree.blockAt_congr sameOrder,
    DominatorTree.contains_congr sameOrder, KnowsPredecessors]

/-- Whether an index can be linked depends on the answers and on the order. -/
theorem resolvable_congr
    {host : Host}
    {firstTime secondTime : Nat}
    {first second : DominatorTree}
    (sameAnswers : host.predecessors firstTime = host.predecessors secondTime)
    (sameOrder : first.order = second.order) :
    host.Resolvable firstTime first = host.Resolvable secondTime second := by
  funext index
  rw [Resolvable, knowsPredecessors_congr sameAnswers sameOrder,
    indexGraph_congr sameAnswers sameOrder, Resolvable]

end Host

namespace Progress

variable {host : Host} {progress : Progress} {index : Nat}

@[simp] theorem tree_ask (progress : Progress) : progress.ask.tree = progress.tree := rfl

@[simp] theorem changed_ask (progress : Progress) : progress.ask.changed = progress.changed := rfl

@[simp] theorem tree_link
    (progress : Progress)
    (index dominator : Nat) :
    (progress.link index dominator).tree = progress.tree.setLink index dominator := by
  rw [link]
  split
  · rename_i recorded
    exact (DominatorTree.setLink_eq_self recorded).symm
  · rfl

@[simp] theorem passes_link
    (progress : Progress)
    (index dominator : Nat) :
    (progress.link index dominator).passes = progress.passes := by
  rw [link]
  split <;> rfl

/-- A link is a change unless it was recorded before. -/
theorem changed_link_iff
    (progress : Progress)
    (index dominator : Nat) :
    (progress.link index dominator).changed = true ↔
      progress.changed = true ∨ progress.tree.link? index ≠ some dominator := by
  rw [link]
  split <;> simp_all

/-- A visit succeeds if the nearest index to the linked predecessors is higher. -/
theorem visit_of_linked
    {root source : Nat}
    (rooted : progress.tree.Rooted root)
    (known : host.KnowsPredecessors progress.passes progress.tree index)
    (isOther :
      source ∈ (host.indexGraph progress.passes progress.tree).others index)
    (linked : progress.tree.isLinked source = true) :
    ∃ dominator,
      progress.tree.IsNearest
          ((host.indexGraph progress.passes progress.tree).others index) dominator ∧
        progress.tree.isLinked dominator = true ∧
          progress.visit host index =
            if index < dominator then
              .ok (progress.ask.link index dominator)
            else
              .error ⟨.lowDominator (progress.tree.blockAt index) index dominator,
                progress.ask⟩ := by
  obtain ⟨dominator, found, dominatorLinked, nearest⟩ :=
    rooted.commonDominator_eq_ok index isOther linked
  refine ⟨dominator, nearest, dominatorLinked, ?_⟩
  have resolved := DominatorTree.resolve_eq_ok
    (progress.tree.blockAt index) index known
  simp only [IndexGraph.others, Host.indexGraph] at found
  simp only [DominatorTree.blockAt] at resolved found ⊢
  simp only [visit, DominatorTree.dominatorOf, resolved, found]
  by_cases higher : index < dominator <;> simp [higher]

/-- A visit fails at the first unknown predecessor. -/
theorem visit_of_unknown
    {unknown : Address}
    (isFirst :
      (host.predecessors progress.passes (progress.tree.blockAt index)).find?
          (fun predecessor => !progress.tree.contains predecessor) =
        some unknown) :
    progress.visit host index =
      .error ⟨.unknownPredecessor unknown (progress.tree.blockAt index), progress.ask⟩ := by
  have failed := DominatorTree.resolve_eq_error
    (progress.tree.blockAt index) index isFirst
  simp only [DominatorTree.blockAt] at failed ⊢
  simp only [visit, DominatorTree.dominatorOf, failed]

/-- A visit fails if no predecessor is linked. -/
theorem visit_of_unlinked
    (known : host.KnowsPredecessors progress.passes progress.tree index)
    (unlinked :
      ∀ source ∈ (host.indexGraph progress.passes progress.tree).others index,
        progress.tree.isLinked source = false) :
    progress.visit host index = .error ⟨.unresolvable index, progress.ask⟩ := by
  have resolved := DominatorTree.resolve_eq_ok
    (progress.tree.blockAt index) index known
  have failed := DominatorTree.commonDominator_eq_error unlinked index
  simp only [IndexGraph.others, Host.indexGraph] at failed
  simp only [DominatorTree.blockAt] at resolved failed
  simp only [visit, DominatorTree.dominatorOf, resolved, failed]

/-- All that a visit can do to a rooted tree, whatever the host answers. -/
theorem visit_cases
    {root : Nat}
    (host : Host)
    (index : Nat)
    (rooted : progress.tree.Rooted root) :
    (∃ unknown,
      progress.visit host index =
        .error ⟨.unknownPredecessor unknown (progress.tree.blockAt index), progress.ask⟩) ∨
    progress.visit host index = .error ⟨.unresolvable index, progress.ask⟩ ∨
    ∃ dominator,
      host.KnowsPredecessors progress.passes progress.tree index ∧
        progress.tree.IsNearest
            ((host.indexGraph progress.passes progress.tree).others index) dominator ∧
          progress.tree.isLinked dominator = true ∧
            progress.visit host index =
              if index < dominator then
                .ok (progress.ask.link index dominator)
              else
                .error ⟨.lowDominator (progress.tree.blockAt index) index dominator,
                  progress.ask⟩ := by
  cases isFirst :
      (host.predecessors progress.passes (progress.tree.blockAt index)).find?
        fun predecessor => !progress.tree.contains predecessor with
  | some unknown => exact .inl ⟨unknown, visit_of_unknown isFirst⟩
  | none =>
      right
      have known : host.KnowsPredecessors progress.passes progress.tree index := by
        intro predecessor named
        simpa using List.find?_eq_none.mp isFirst predecessor named
      by_cases someLinked :
          ∃ source ∈ (host.indexGraph progress.passes progress.tree).others index,
            progress.tree.isLinked source = true
      · obtain ⟨source, isOther, linked⟩ := someLinked
        obtain ⟨dominator, nearest, dominatorLinked, visited⟩ :=
          visit_of_linked rooted known isOther linked
        exact .inr ⟨dominator, known, nearest, dominatorLinked, visited⟩
      · left
        refine visit_of_unlinked known ?_
        intro source isOther
        exact Bool.eq_false_iff.mpr fun linked => someLinked ⟨source, isOther, linked⟩

/-- A visit that succeeds links the index to the nearest of its predecessors. -/
theorem exists_link_of_visit
    {root : Nat}
    {next : Progress}
    (rooted : progress.tree.Rooted root)
    (visited : progress.visit host index = .ok next) :
    ∃ dominator,
      host.KnowsPredecessors progress.passes progress.tree index ∧
        progress.tree.IsNearest
            ((host.indexGraph progress.passes progress.tree).others index) dominator ∧
          progress.tree.isLinked dominator = true ∧
            index < dominator ∧
              next = progress.ask.link index dominator := by
  rcases visit_cases host index rooted with
      ⟨unknown, failed⟩ | failed | ⟨dominator, known, nearest, linked, made⟩
  · rw [failed] at visited
    cases visited
  · rw [failed] at visited
    cases visited
  · rw [made] at visited
    split at visited
    · rename_i higher
      cases visited
      exact ⟨dominator, known, nearest, linked, higher, rfl⟩
    · cases visited

/-- A visit fails because of a predecessor that is unknown, not linked or too low. -/
theorem cause_of_visit
    {root : Nat}
    {failure : Failure}
    (rooted : progress.tree.Rooted root)
    (failed : progress.visit host index = .error failure) :
    (∃ unknown,
      failure.cause = .unknownPredecessor unknown (progress.tree.blockAt index)) ∨
    failure.cause = .unresolvable index ∨
    ∃ dominator,
      failure.cause = .lowDominator (progress.tree.blockAt index) index dominator := by
  rcases visit_cases host index rooted with
      ⟨unknown, made⟩ | made | ⟨dominator, _, _, _, made⟩
  · rw [made] at failed
    cases failed
    exact .inl ⟨unknown, rfl⟩
  · rw [made] at failed
    cases failed
    exact .inr (.inl rfl)
  · rw [made] at failed
    split at failed
    · cases failed
    · cases failed
      exact .inr (.inr ⟨dominator, rfl⟩)

end Progress

end Dominance
