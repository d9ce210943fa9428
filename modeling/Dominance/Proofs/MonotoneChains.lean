import Mathlib.Data.List.Sort
import Mathlib.Logic.Relation
import Dominance.Proofs.Queries
import Dominance.Proofs.Stage

namespace Dominance

/-!
# Chains only lose members

A build on a host that keeps its answers starts from chains that are too long and
shortens them.  If every block but the entry has known predecessors, one of them with a
higher index, this is true from step to step and not only from pass to pass.

Recording a link moves all chains through an index at once, also those of indices that
are not visited.  What keeps them from growing is the order of the visits, so the
invariant says what has been visited: between passes the tree approximates dominance,
and within a pass the visited indices are up to date against the tree with which the
pass began.
-/

namespace DominatorTree

/-- A chain that has only members of another one is a part of it, in the same order. -/
theorem ascent_sublist
    {first second : DominatorTree}
    {index : Nat}
    (kept : ∀ target ∈ second.ascent index, target ∈ first.ascent index) :
    (second.ascent index).Sublist (first.ascent index) :=
  List.sublist_of_subperm_of_pairwise
    (List.subperm_of_subset (second.pairwise_ascent index).nodup kept)
    (second.pairwise_ascent index) (first.pairwise_ascent index)

/-- Links that are replaced give way to higher members of their own chains. -/
structure Shortens (before after : DominatorTree) : Prop where
  replaces :
    ∀ index replaced,
      before.link? index = some replaced →
        ∃ link,
          after.link? index = some link ∧
            (link ≠ replaced →
              replaced < link ∧
                link ∈ before.ascent replaced ∧
                  after.ascent replaced = before.ascent replaced)
  /-- Indices stay linked, and chains lose members at most. -/
  loses :
    ∀ index,
      before.isLinked index = true →
        after.isLinked index = true ∧ (after.ascent index).Sublist (before.ascent index)

theorem Shortens.refl (tree : DominatorTree) : tree.Shortens tree where
  replaces := fun _ replaced recorded =>
    ⟨replaced, recorded, fun different => (different rfl).elim⟩
  loses := fun index linked => ⟨linked, List.Sublist.refl (tree.ascent index)⟩

end DominatorTree

/-- A visit within a pass replaces at most one link, by a higher member of its chain. -/
theorem IndexGraph.Sweeping.shortens
    {graph : IndexGraph}
    {before now : DominatorTree}
    {index dominator : Nat}
    (sweeping : graph.Sweeping before now (index + 1))
    (supported : graph.Supported index)
    (nearest : now.IsNearest (graph.others index) dominator)
    (below : index < graph.root) :
    now.Shortens (now.setLink index dominator) := by
  have inside := sweeping.rooted.lt_size below
  constructor
  · intro other replaced recorded
    rw [DominatorTree.link?_setLink inside]
    by_cases isIndex : other = index
    · subst isIndex
      refine ⟨dominator, if_pos rfl, ?_⟩
      intro different
      have linked : now.isLinked other = true := DominatorTree.isLinked_iff.mpr ⟨replaced, recorded⟩
      obtain ⟨same, isSame, climbs, _⟩ := sweeping.rooted.exists_climb linked below
      obtain rfl : replaced = same := Option.some.inj (recorded.symm.trans isSame)
      have member := sweeping.mem_ascent_of_replaced supported nearest below climbs
      have higher := (DominatorTree.lt_of_climb?_eq_some climbs).2
      exact ⟨Nat.lt_of_le_of_ne (DominatorTree.le_of_mem_ascent member) different.symm, member,
        DominatorTree.ascent_setLink_of_lt inside dominator higher⟩
    · rw [if_neg isIndex]
      exact ⟨replaced, recorded, fun different => (different rfl).elim⟩
  · intro other linked
    refine ⟨(DominatorTree.isLinked_setLink inside dominator other).mpr (.inr linked), ?_⟩
    exact DominatorTree.ascent_sublist fun _ member =>
      sweeping.mem_ascent_of_setLink supported nearest below linked member

namespace Host

/-- One step of a build: a pass begins, an index is visited, or a pass ends. -/
inductive Advances (host : Host) : Position × Progress → Position × Progress → Prop where
  | begin
      {progress : Progress} :
      progress.changed = true →
      Advances host (.between, progress)
        (.within (progress.tree.size - 1), { progress with changed := false })
  | visit
      {index : Nat}
      {progress next : Progress} :
      progress.visit host index = .ok next →
      Advances host (.within (index + 1), progress) (.within index, next)
  | finish
      {progress : Progress} :
      Advances host (.within 0, progress)
        (.between, { progress with passes := progress.passes + 1 })

/-- A state of a build with what its position says about the tree. -/
structure Descending
    (host : Host)
    (seed : DominatorTree)
    (state : Position × Progress) :
    Prop where
  order_eq : state.2.tree.order = seed.order
  between :
    state.1 = .between →
    (host.indexGraph 0 seed).Approximates state.2.tree
  within :
    ∀ waiting,
      state.1 = .within waiting →
      waiting ≤ (host.indexGraph 0 seed).root ∧
        ∃ before,
          before.order = seed.order ∧
            Progress.Underway host state.2.passes before waiting state.2

namespace Descending

variable {host : Host} {seed : DominatorTree} {first second : Position × Progress}

/-- Within a pass the visited indices are up to date. -/
theorem exists_sweeping
    (settled : host.SettlesAt 0)
    (descending : host.Descending seed first)
    {waiting : Nat}
    (isWithin : first.1 = .within waiting) :
    ∃ before, (host.indexGraph 0 seed).Sweeping before first.2.tree waiting := by
  obtain ⟨_, before, sameOrder, underway⟩ := descending.within waiting isWithin
  refine ⟨before, ?_⟩
  rw [← indexGraph_congr (settled first.2.passes (Nat.zero_le _)) sameOrder]
  exact underway.sweeping

/-- Chains hold all dominators. -/
theorem mem_ascent_of_dominates
    (settled : host.SettlesAt 0)
    (descending : host.Descending seed first)
    {index dominator : Nat}
    (linked : first.2.tree.isLinked index = true)
    (dominates : (host.indexGraph 0 seed).Dominates dominator index) :
    dominator ∈ first.2.tree.ascent index := by
  cases position : first.1 with
  | between => exact (descending.between position).sound linked dominates
  | within waiting =>
      obtain ⟨before, sweeping⟩ := descending.exists_sweeping settled position
      exact sweeping.sound linked dominates

section Steps

variable (settled : host.SettlesAt 0)
  (resolvable : ∀ index < (host.indexGraph 0 seed).root, host.Resolvable 0 seed index)

include settled resolvable

/-- A visit succeeds, shortens chains and carries the pass on. -/
theorem visit
    {index : Nat}
    {progress : Progress}
    (descending : host.Descending seed (.within (index + 1), progress)) :
    ∃ next,
      progress.visit host index = .ok next ∧
        progress.tree.Shortens next.tree ∧
          host.Descending seed (.within index, next) := by
  obtain ⟨inside, before, sameOrder, underway⟩ := descending.within _ rfl
  have sameAnswers := settled progress.passes (Nat.zero_le _)
  have sameGraph := indexGraph_congr sameAnswers sameOrder
  have isResolvable : host.Resolvable progress.passes before index := by
    rw [resolvable_congr sameAnswers sameOrder]
    exact resolvable index inside
  obtain ⟨next, visited, nextUnderway⟩ := underway.visit (sameGraph ▸ inside) isResolvable
  refine ⟨next, visited, ?_, ?_⟩
  · obtain ⟨dominator, _, nearest, _, _, rfl⟩ :=
      Progress.exists_link_of_visit underway.sweeping.rooted visited
    rw [underway.indexGraph_eq] at nearest
    rw [Progress.tree_link]
    exact underway.sweeping.shortens isResolvable.2 nearest (sameGraph ▸ inside)
  · refine ⟨nextUnderway.order_eq.trans sameOrder, fun isBetween => (nomatch isBetween), ?_⟩
    rintro _ ⟨rfl⟩
    refine ⟨Nat.le_of_lt inside, before, sameOrder, ?_⟩
    show Progress.Underway host next.passes before index next
    rw [nextUnderway.passes_eq]
    exact nextUnderway

/-- A step shortens chains and keeps the invariant. -/
theorem advance
    (descending : host.Descending seed first)
    (advances : host.Advances first second) :
    first.2.tree.Shortens second.2.tree ∧ host.Descending seed second := by
  cases advances with
  | @begin progress _ =>
      refine ⟨.refl _, descending.order_eq, fun isBetween => (nomatch isBetween), ?_⟩
      rintro _ ⟨rfl⟩
      have sameGraph :=
        indexGraph_congr (settled progress.passes (Nat.zero_le _)) descending.order_eq
      have approximates := descending.between rfl
      rw [← sameGraph] at approximates ⊢
      exact ⟨Nat.le_refl _, _, descending.order_eq,
        Progress.underway_of_approximates approximates⟩
  | visit visited =>
      obtain ⟨next, isNext, shortens, nextDescending⟩ := descending.visit settled resolvable
      obtain rfl : next = _ := Except.ok.inj (isNext.symm.trans visited)
      exact ⟨shortens, nextDescending⟩
  | finish =>
      refine ⟨.refl _, descending.order_eq, ?_, fun _ isWithin => (nomatch isWithin)⟩
      intro _
      obtain ⟨before, sweeping⟩ := descending.exists_sweeping settled rfl
      exact sweeping.approximates_now

/-- In the course of a build linked indices stay linked and chains lose members. -/
theorem run
    (descending : host.Descending seed first)
    (steps : Relation.ReflTransGen host.Advances first second) :
    host.Descending seed second ∧
      ∀ index,
        first.2.tree.isLinked index = true →
          second.2.tree.isLinked index = true ∧
            (second.2.tree.ascent index).Sublist (first.2.tree.ascent index) := by
  induction steps with
  | refl => exact ⟨descending, (DominatorTree.Shortens.refl _).loses⟩
  | tail _ advances inductionHypothesis =>
      -- The invariant goes along: a step shortens chains only where it holds.
      obtain ⟨middle, sofar⟩ := inductionHypothesis
      obtain ⟨shortens, last⟩ := middle.advance settled resolvable advances
      refine ⟨last, ?_⟩
      intro index linked
      obtain ⟨middleLinked, middleSublist⟩ := sofar index linked
      obtain ⟨lastLinked, lastSublist⟩ := shortens.loses index middleLinked
      exact ⟨lastLinked, lastSublist.trans middleSublist⟩

end Steps

/-- The invariant holds at every stage of a build. -/
theorem of_stage
    (settled : host.SettlesAt 0)
    (accepted : host.index = .ok seed)
    (noneBad : ∀ index, ¬ host.Bad index)
    {position : Position}
    {progress : Progress}
    (stage : host.Stage seed position progress) :
    host.Descending seed (position, progress) := by
  have seeded := seededBy_of_index accepted
  have resolvable := seeded.resolvable_of_not_bad noneBad
  induction stage with
  | start =>
      refine ⟨rfl, fun _ => ?_, fun _ isWithin => (nomatch isWithin)⟩
      exact IndexGraph.approximates_of_unlinked (seeded.seed_rooted 0)
        (seeded.root_eq 0 ▸ seeded.unlinked)
  | begin _ changed inductionHypothesis =>
      exact (inductionHypothesis.advance settled resolvable (.begin changed)).2
  | visit _ visited inductionHypothesis =>
      exact (inductionHypothesis.advance settled resolvable (.visit visited)).2
  | finish _ inductionHypothesis =>
      exact (inductionHypothesis.advance settled resolvable .finish).2

end Descending

/--
At every stage of a build on a host that keeps its answers and has no bad block, the chain
of a linked index holds all dominators of its block.  No visit fails, and no step makes a
chain longer: a link that is replaced gives way to a higher index on its own chain.  So from
any stage on linked indices stay linked, and their chains only lose members.
-/
theorem chains_only_lose_members
    {host : Host}
    {seed : DominatorTree}
    (settled : host.SettlesAt 0)
    (accepted : host.index = .ok seed)
    (noneBad : ∀ index, ¬ host.Bad index)
    {position : Position}
    {progress : Progress}
    (stage : host.Stage seed position progress) :
    (∀ address index dominator,
      host.Holds address index →
        progress.tree.isLinked index = true →
          OnEveryPath host.Edge host.entry dominator address →
            ∃ target ∈ progress.tree.ascent index, host.Holds dominator target) ∧
      (∀ index,
        position = .within (index + 1) → ∃ next, progress.visit host index = .ok next) ∧
        (∀ later,
          host.Advances (position, progress) later → progress.tree.Shortens later.2.tree) ∧
          ∀ later,
            Relation.ReflTransGen host.Advances (position, progress) later →
              ∀ index,
                progress.tree.isLinked index = true →
                  later.2.tree.isLinked index = true ∧
                    (later.2.tree.ascent index).Sublist (progress.tree.ascent index) := by
  have seeded := seededBy_of_index accepted
  have resolvable := seeded.resolvable_of_not_bad noneBad
  have descending := Descending.of_stage settled accepted noneBad stage
  refine ⟨?_, ?_, ?_, ?_⟩
  · intro address index dominator holds linked onEveryPath
    have stands := seeded.holds_iff.mp holds
    obtain ⟨target, dominatorStands⟩ :=
      DominatorTree.contains_iff.mp
        (seeded.contains_of_onEveryPath resolvable stands onEveryPath)
    have dominates := (seeded.dominates_iff resolvable stands dominatorStands).mpr onEveryPath
    exact ⟨target, descending.mem_ascent_of_dominates settled linked dominates,
      seeded.holds_iff.mpr dominatorStands⟩
  · rintro index rfl
    obtain ⟨next, visited, _⟩ := descending.visit settled resolvable
    exact ⟨next, visited⟩
  · intro later advances
    exact (descending.advance settled resolvable advances).1
  · intro later steps
    exact (descending.run settled resolvable steps).2

/-- A block in the middle of a row that is entered from the end as well. -/
def lateEntry : Host where
  size := 5
  entry := ⟨10⟩
  nodes := [⟨⟨10⟩, some 4⟩, ⟨⟨20⟩, some 3⟩, ⟨⟨30⟩, some 2⟩, ⟨⟨40⟩, some 1⟩, ⟨⟨50⟩, some 0⟩]
  predecessors := fun _ address =>
    if address = ⟨20⟩ then [⟨10⟩]
    else if address = ⟨30⟩ then [⟨20⟩, ⟨50⟩]
    else if address = ⟨40⟩ then [⟨30⟩]
    else if address = ⟨50⟩ then [⟨10⟩]
    else []

theorem not_bad_lateEntry (index : Nat) : ¬ lateEntry.Bad index := by
  rintro ⟨address, holds, notEntry, isBad⟩
  simp [lateEntry, Holds] at holds notEntry
  rcases holds with ⟨rfl, rfl⟩ | ⟨rfl, rfl⟩ | ⟨rfl, rfl⟩ | ⟨rfl, rfl⟩ | ⟨rfl, rfl⟩ <;>
    simp_all [lateEntry, Holds, Lists]

/--
In the second pass the block in the middle is linked past its first dominator.  The next
block is not visited then, and its chain still loses a member.
-/
theorem lateEntry_chains_lose_members :
    ∃ progress next,
      lateEntry.Stage (.ofOrder #[⟨50⟩, ⟨40⟩, ⟨30⟩, ⟨20⟩, ⟨10⟩]) (.within 3) progress ∧
        progress.visit lateEntry 2 = .ok next ∧
          progress.tree.link? 2 = some 3 ∧
            next.tree.link? 2 = some 4 ∧
              4 ∈ progress.tree.ascent 3 ∧
                (next.tree.ascent 1).Sublist (progress.tree.ascent 1) ∧
                  3 ∈ progress.tree.ascent 1 ∧
                    3 ∉ next.tree.ascent 1 := by
  have firstPass :
      lateEntry.Stage (.ofOrder #[⟨50⟩, ⟨40⟩, ⟨30⟩, ⟨20⟩, ⟨10⟩]) (.within 0) _ :=
    ((((Stage.start.begin rfl).visit rfl).visit rfl).visit rfl).visit rfl
  obtain ⟨progress, stage, recorded, linked, chain_eq, after⟩ :
      ∃ progress,
        lateEntry.Stage (.ofOrder #[⟨50⟩, ⟨40⟩, ⟨30⟩, ⟨20⟩, ⟨10⟩]) (.within 3) progress ∧
          progress.tree.link? 2 = some 3 ∧
            progress.tree.isLinked 1 = true ∧
              progress.tree.ascent 1 = [1, 2, 3, 4] ∧
                ((progress.visit lateEntry 2).toOption.map fun next =>
                  (next.tree.link? 2, next.tree.ascent 1)) = some (some 4, [1, 2, 4]) :=
    ⟨_, (firstPass.finish.begin rfl).visit rfl, rfl, rfl, by decide +kernel, by decide +kernel⟩
  obtain ⟨_, visits, shortens, _⟩ :=
    chains_only_lose_members (fun _ _ => rfl) rfl not_bad_lateEntry stage
  obtain ⟨next, visited⟩ := visits 2 rfl
  obtain ⟨replaces, loses⟩ := shortens _ (.visit visited)
  rw [visited] at after
  obtain ⟨link_eq, after_eq⟩ := Prod.mk.inj (Option.some.inj after)
  obtain ⟨link, isLink, higher⟩ := replaces 2 3 recorded
  obtain rfl : 4 = link := Option.some.inj (link_eq.symm.trans isLink)
  refine ⟨progress, next, stage, visited, recorded, link_eq, (higher (by decide)).2.1,
    (loses 1 linked).2, ?_, ?_⟩
  · rw [chain_eq]
    decide
  · rw [after_eq]
    decide

end Host

end Dominance
