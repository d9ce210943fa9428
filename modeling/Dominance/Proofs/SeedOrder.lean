import Dominance.Proofs.Enumeration

namespace Dominance

/-!
# Taking the seed out of the predecessors

The dominator of a block can be found in place.  The first linked predecessor is the seed.
It is taken out of the list, and the last predecessor moves into the gap.  Then one loop runs
over what is left, skips predecessors without a link, and keeps the common index found so far.

The predecessors are looked at in another order than they were named in, which changes
nothing in a tree that is rooted, and the tree is rooted at every stage of a build.
-/

/-- Take the item at a position out of a list and put the last one into the gap. -/
def swapRemove {Item : Type} (items : List Item) (position : Nat) : List Item :=
  items.getLast?.elim [] fun last => (items.set position last).dropLast

/-- If the last item is taken out, the others stay where they are. -/
theorem swapRemove_last
    {Item : Type}
    (before : List Item)
    (item : Item) :
    swapRemove (before ++ [item]) before.length = before := by
  simp [swapRemove]

/-- If another item is taken out, the last one stands in its place. -/
theorem swapRemove_inner
    {Item : Type}
    (before after : List Item)
    (item last : Item) :
    swapRemove (before ++ item :: (after ++ [last])) before.length = before ++ last :: after := by
  have isLast : (before ++ item :: (after ++ [last])).getLast? = some last := by
    rw [← List.cons_append, ← List.append_assoc, List.getLast?_concat]
  rw [swapRemove, isLast, Option.elim_some, List.set_append_right _ _ (Nat.le_refl _),
    Nat.sub_self, List.set_cons_zero, ← List.cons_append, ← List.append_assoc,
    List.dropLast_concat]

/-- The item that is taken out and the others are the items of the list. -/
theorem cons_swapRemove_perm
    {Item : Type}
    {items : List Item}
    {item : Item}
    {position : Nat}
    (stands : items[position]? = some item) :
    (item :: swapRemove items position).Perm items := by
  obtain ⟨inside, rfl⟩ := List.getElem?_eq_some_iff.mp stands
  obtain ⟨before, item, after, rfl, rfl⟩ :
      ∃ before item after, items = before ++ item :: after ∧ before.length = position :=
    ⟨items.take position, items[position], items.drop (position + 1),
      by rw [List.getElem_cons_drop, List.take_append_drop],
      List.length_take_of_le (Nat.le_of_lt inside)⟩
  rw [List.getElem_append_right (Nat.le_refl _)]
  simp only [Nat.sub_self, List.getElem_cons_zero]
  rcases List.eq_nil_or_concat' after with rfl | ⟨later, last, rfl⟩
  · rw [swapRemove_last]
    exact (List.perm_append_singleton item before).symm
  · rw [swapRemove_inner]
    refine List.Perm.trans (List.Perm.cons item ?_) List.perm_middle.symm
    exact (List.perm_append_singleton last later).symm.append_left before

namespace DominatorTree

variable {tree : DominatorTree} {root : Nat}

/-- Go on to the common index with those of further predecessors that are linked. -/
def meetLinked
    (tree : DominatorTree)
    (nearest : Nat) :
    List Nat → Except BrokenChain Nat
  | [] => .ok nearest
  | next :: rest =>
      if tree.isLinked next then
        (tree.meet next nearest).bind fun common => tree.meetLinked common rest
      else
        tree.meetLinked nearest rest

/-- The common index of the linked predecessors, starting from the seed. -/
def seededDominator
    (tree : DominatorTree)
    (index : Nat)
    (predecessors : List Nat) :
    Except BuildError Nat :=
  (predecessors.findIdx? tree.isLinked).elim (.error (.unresolvable index)) fun seed =>
    (tree.meetLinked (predecessors.getD seed 0) (swapRemove predecessors seed)).mapError
      .brokenChain

/-- Skipping predecessors without a link is leaving them out. -/
theorem meetLinked_eq_meetAll
    (tree : DominatorTree)
    (nearest : Nat)
    (predecessors : List Nat) :
    tree.meetLinked nearest predecessors =
      tree.meetAll nearest (predecessors.filter tree.isLinked) := by
  induction predecessors generalizing nearest with
  | nil => rfl
  | cons next rest inductionHypothesis =>
      rw [meetLinked]
      cases linked : tree.isLinked next with
      | false =>
          rw [List.filter_cons_of_neg (by simp [linked])]
          exact inductionHypothesis nearest
      | true =>
          rw [List.filter_cons_of_pos linked, meetAll, if_pos rfl]
          cases tree.meet next nearest with
          | error error => rfl
          | ok common => exact inductionHypothesis common

/-- With a linked predecessor in front, the others are met one by one. -/
theorem commonDominator_cons
    {first : Nat}
    (linked : tree.isLinked first = true)
    (index : Nat)
    (rest : List Nat) :
    tree.commonDominator index (first :: rest) =
      (tree.meetLinked first rest).mapError .brokenChain := by
  rw [commonDominator, List.filter_cons_of_pos linked, meetLinked_eq_meetAll]
  cases met : tree.meetAll first (rest.filter tree.isLinked) <;> simp [met, Except.mapError]

/-- Starting from the seed gives the common index in the order of the list. -/
theorem Rooted.seededDominator_eq
    (rooted : tree.Rooted root)
    (index : Nat)
    (predecessors : List Nat) :
    tree.seededDominator index predecessors = tree.commonDominator index predecessors := by
  rw [seededDominator]
  cases found : predecessors.findIdx? tree.isLinked with
  | none =>
      rw [commonDominator_eq_error (List.findIdx?_eq_none_iff.mp found)]
      rfl
  | some seed =>
      obtain ⟨inside, linked, _⟩ := List.findIdx?_eq_some_iff_getElem.mp found
      have stands := List.getElem?_eq_getElem inside
      rw [Option.elim_some, List.getD_eq_getElem?_getD, stands, Option.getD_some,
        ← commonDominator_cons linked]
      exact rooted.commonDominator_congr index fun _ => (cons_swapRemove_perm stands).mem_iff

/-- The dominator of an index, found from the seed. -/
def seededDominatorOf
    (tree : DominatorTree)
    (block : Address)
    (index : Nat)
    (predecessors : List Address) :
    Except BuildError Nat :=
  (tree.resolve block index predecessors).bind fun indices =>
    (tree.seededDominator index indices).bind fun dominator =>
      if index < dominator then .ok dominator else .error (.lowDominator block index dominator)

/-- The dominator that is found from the seed is the one that is recorded. -/
theorem Rooted.seededDominatorOf_eq
    (rooted : tree.Rooted root)
    (block : Address)
    (index : Nat)
    (predecessors : List Address) :
    tree.seededDominatorOf block index predecessors =
      tree.dominatorOf block index predecessors := by
  rw [seededDominatorOf, dominatorOf]
  cases tree.resolve block index predecessors with
  | error error => rfl
  | ok indices =>
      simp only [Except.bind, rooted.seededDominator_eq]
      cases tree.commonDominator index indices <;> rfl

end DominatorTree

/-- At every stage of a build a visit can find the dominator from the seed. -/
theorem Host.Stage.visit_eq_seeded
    {host : Host}
    {seed : DominatorTree}
    {position : Position}
    {progress : Progress}
    (accepted : host.index = .ok seed)
    (stage : host.Stage seed position progress)
    (index : Nat) :
    progress.visit host index =
      ((progress.tree.seededDominatorOf (progress.tree.blockAt index) index
        (host.predecessors progress.passes (progress.tree.blockAt index))).mapError
          fun cause => Failure.mk cause progress.ask).map (progress.ask.link index) := by
  have rooted := (stage.sound (seededBy_of_index accepted).rooted_seed).rooted
  rw [rooted.seededDominatorOf_eq, Progress.visit, DominatorTree.blockAt]
  cases progress.tree.dominatorOf ((progress.tree.address? index).getD default) index
    (host.predecessors progress.passes ((progress.tree.address? index).getD default)) <;> rfl

end Dominance
