import Dominance.Proofs.Chain
import Dominance.Tree.Verify

namespace Dominance

/-!
# Rooted trees

A tree under construction is rooted: the root links to itself, and every other
recorded link climbs to an index that has a link as well.  Every chain that has
begun therefore ends at the root, so the chains of linked indices always meet.
A build keeps its tree rooted whatever the host answers.
-/

namespace DominatorTree

@[simp] theorem order_setLink
    (tree : DominatorTree)
    (index dominator : Nat) :
    (tree.setLink index dominator).order = tree.order :=
  rfl

@[simp] theorem size_setLink
    (tree : DominatorTree)
    (index dominator : Nat) :
    (tree.setLink index dominator).size = tree.size :=
  rfl

/-- Only the recorded link changes. -/
theorem link?_setLink
    {tree : DominatorTree}
    {index : Nat}
    (inside : index < tree.size)
    (dominator other : Nat) :
    (tree.setLink index dominator).link? other =
      if other = index then some dominator else tree.link? other := by
  have inLinks : index < tree.links.size := tree.links_size ▸ inside
  simp only [link?, setLink, Array.getD_eq_getD_getElem?, Array.getElem?_setIfInBounds]
  by_cases same : index = other
  · subst same
    simp [inLinks]
  · have different : ¬ other = index := fun equal => same equal.symm
    simp [same, different]

/-- Recording a link that is there already changes nothing. -/
theorem setLink_eq_self
    {tree : DominatorTree}
    {index dominator : Nat}
    (recorded : tree.link? index = some dominator) :
    tree.setLink index dominator = tree := by
  have sameLinks : tree.links.setIfInBounds index (some dominator) = tree.links := by
    apply Array.ext_getElem?
    intro other
    rw [Array.getElem?_setIfInBounds]
    split
    · rename_i same
      subst same
      simp only [link?, Array.getD_eq_getD_getElem?] at recorded
      split
      · rename_i inside
        simpa [inside] using recorded.symm
      · rename_i outside
        simp [outside]
    · rfl
  cases tree
  simp only [setLink, DominatorTree.mk.injEq, true_and, and_true]
  exact sameLinks

theorem isLinked_iff
    {tree : DominatorTree}
    {index : Nat} :
    tree.isLinked index = true ↔ ∃ dominator, tree.link? index = some dominator := by
  rw [isLinked, Option.isSome_iff_exists]

/-- Recording a link makes an index linked and keeps the others. -/
theorem isLinked_setLink
    {tree : DominatorTree}
    {index : Nat}
    (inside : index < tree.size)
    (dominator other : Nat) :
    (tree.setLink index dominator).isLinked other = true ↔
      other = index ∨ tree.isLinked other = true := by
  rw [isLinked, link?_setLink inside, isLinked]
  split <;> simp_all

/-- A new link changes no other climb. -/
theorem climb?_setLink_of_ne
    {tree : DominatorTree}
    {index other : Nat}
    (inside : index < tree.size)
    (dominator : Nat)
    (different : other ≠ index) :
    (tree.setLink index dominator).climb? other = tree.climb? other := by
  rw [climb?, link?_setLink inside, if_neg different, climb?]

/-- An index climbs along its new link. -/
theorem climb?_setLink_self
    {tree : DominatorTree}
    {index dominator : Nat}
    (inside : index < tree.size)
    (higher : index < dominator) :
    (tree.setLink index dominator).climb? index = some dominator := by
  rw [climb?, link?_setLink inside, if_pos rfl]
  simp [Option.filter, higher]

/-- Chains above an index do not change when its link is recorded. -/
theorem ascent_setLink_of_lt
    {tree : DominatorTree}
    {index other : Nat}
    (inside : index < tree.size)
    (dominator : Nat)
    (above : index < other) :
    (tree.setLink index dominator).ascent other = tree.ascent other :=
  ascent_congr fun _ isAbove =>
    climb?_setLink_of_ne inside dominator (by omega)

/-- The root links to itself and the other recorded links climb to linked indices. -/
structure Rooted (tree : DominatorTree) (root : Nat) : Prop where
  size_eq : tree.size = root + 1
  root_link : tree.link? root = some root
  climbs :
    ∀ {index dominator : Nat},
      index < root →
      tree.link? index = some dominator →
      index < dominator ∧ tree.isLinked dominator = true

/-- An index that is nearest to the linked ones among some indices. -/
def IsNearest
    (tree : DominatorTree)
    (indices : List Nat)
    (dominator : Nat) : Prop :=
  ∀ target,
    target ∈ tree.ascent dominator ↔
      ∀ index ∈ indices, tree.isLinked index = true → target ∈ tree.ascent index

namespace Rooted

variable {tree : DominatorTree} {root index : Nat}

theorem lt_size
    (rooted : tree.Rooted root)
    (below : index < root) :
    index < tree.size := by
  rw [rooted.size_eq]
  exact Nat.lt_succ_of_lt below

theorem link?_of_lt
    (rooted : tree.Rooted root)
    (outside : root < index) :
    tree.link? index = none := by
  have beyond : tree.links.size ≤ index := by
    rw [tree.links_size, ← size, rooted.size_eq]
    exact outside
  simp [link?, Array.getD_eq_getD_getElem?, Array.getElem?_eq_none beyond]

/-- What is linked does not stand above the root. -/
theorem le_of_isLinked
    (rooted : tree.Rooted root)
    (linked : tree.isLinked index = true) :
    index ≤ root := by
  apply Nat.le_of_not_lt
  intro outside
  simp [isLinked, rooted.link?_of_lt outside] at linked

/-- Links stay inside the tree. -/
theorem le_of_link?
    {dominator : Nat}
    (rooted : tree.Rooted root)
    (recorded : tree.link? index = some dominator) :
    dominator ≤ root := by
  have linked : tree.isLinked index = true := isLinked_iff.mpr ⟨dominator, recorded⟩
  rcases Nat.lt_or_eq_of_le (rooted.le_of_isLinked linked) with below | isRoot
  · exact rooted.le_of_isLinked (rooted.climbs below recorded).2
  · rw [isRoot, rooted.root_link, Option.some.injEq] at recorded
    exact Nat.le_of_eq recorded.symm

theorem root_isLinked (rooted : tree.Rooted root) : tree.isLinked root = true :=
  isLinked_iff.mpr ⟨root, rooted.root_link⟩

theorem climb?_root (rooted : tree.Rooted root) : tree.climb? root = none := by
  simp [climb?, rooted.root_link, Option.filter]

/-- Every linked index but the root has a climbing link. -/
theorem exists_climb
    (rooted : tree.Rooted root)
    (linked : tree.isLinked index = true)
    (below : index < root) :
    ∃ dominator,
      tree.link? index = some dominator ∧
        tree.climb? index = some dominator ∧
          tree.isLinked dominator = true := by
  obtain ⟨dominator, recorded⟩ := isLinked_iff.mp linked
  obtain ⟨higher, dominatorLinked⟩ := rooted.climbs below recorded
  exact ⟨dominator, recorded, by simp [climb?, recorded, Option.filter, higher],
    dominatorLinked⟩

/-- Both ends of a climb are linked. -/
theorem isLinked_of_climb
    (rooted : tree.Rooted root)
    {dominator : Nat}
    (climbs : tree.climb? index = some dominator) :
    tree.isLinked index = true ∧ tree.isLinked dominator = true := by
  have recorded := (Option.filter_eq_some_iff.mp climbs).1
  have linked : tree.isLinked index = true := isLinked_iff.mpr ⟨dominator, recorded⟩
  refine ⟨linked, ?_⟩
  rcases Nat.lt_or_eq_of_le (rooted.le_of_isLinked linked) with below | isRoot
  · exact (rooted.climbs below recorded).2
  · rw [isRoot, rooted.climb?_root] at climbs
    cases climbs

/-- The chain of a linked index is linked. -/
theorem isLinked_of_mem_ascent
    (rooted : tree.Rooted root)
    (linked : tree.isLinked index = true)
    {target : Nat}
    (member : target ∈ tree.ascent index) :
    tree.isLinked target = true := by
  fun_induction tree.ascent index with
  | case1 index ends => exact List.mem_singleton.mp member ▸ linked
  | case2 index dominator climbs inductionHypothesis =>
      rcases List.mem_cons.mp member with isIndex | isAbove
      · exact isIndex ▸ linked
      · exact inductionHypothesis (rooted.isLinked_of_climb climbs).2 isAbove

/-- A chain that starts inside the tree stays there, also if it has not begun. -/
theorem lt_size_of_mem_ascent
    (rooted : tree.Rooted root)
    (inside : index < tree.size)
    {target : Nat}
    (member : target ∈ tree.ascent index) :
    target < tree.size := by
  rw [rooted.size_eq] at inside ⊢
  cases linked : tree.isLinked index with
  | true =>
      exact Nat.lt_succ_of_le
        (rooted.le_of_isLinked (rooted.isLinked_of_mem_ascent linked member))
  | false =>
      have ends : tree.climb? index = none := by
        rw [isLinked, Option.isSome_eq_false_iff, Option.isNone_iff_eq_none] at linked
        rw [climb?, linked, Option.filter_none]
      exact eq_of_mem_ascent ends member ▸ inside

/-- The chain of a linked index ends at the root. -/
theorem root_mem_ascent
    (rooted : tree.Rooted root)
    (linked : tree.isLinked index = true) :
    root ∈ tree.ascent index := by
  fun_induction tree.ascent index with
  | case1 index ends =>
      rcases Nat.lt_or_eq_of_le (rooted.le_of_isLinked linked) with below | isRoot
      · obtain ⟨dominator, _, climbs, _⟩ := rooted.exists_climb linked below
        rw [ends] at climbs
        cases climbs
      · simp [isRoot]
  | case2 index dominator climbs inductionHypothesis =>
      exact List.mem_cons_of_mem _
        (inductionHypothesis (rooted.isLinked_of_climb climbs).2)

/-- The root is the end of the chain of a linked index. -/
theorem getLast?_ascent
    (rooted : tree.Rooted root)
    (linked : tree.isLinked index = true) :
    (tree.ascent index).getLast? = some root := by
  fun_induction tree.ascent index with
  | case1 index ends =>
      have isRoot := eq_of_mem_ascent ends (rooted.root_mem_ascent linked)
      rw [isRoot, List.getLast?_singleton]
  | case2 index dominator climbs inductionHypothesis =>
      rw [List.getLast?_cons,
        inductionHypothesis (rooted.isLinked_of_climb climbs).2, Option.getD_some]

/-- Recording a link that climbs to a linked index keeps a tree rooted. -/
theorem setLink
    (rooted : tree.Rooted root)
    (below : index < root)
    {dominator : Nat}
    (higher : index < dominator)
    (linked : tree.isLinked dominator = true) :
    (tree.setLink index dominator).Rooted root where
  size_eq := rooted.size_eq
  root_link := by
    rw [link?_setLink (rooted.lt_size below), if_neg (by omega), rooted.root_link]
  climbs := by
    intro other target otherBelow recorded
    rw [link?_setLink (rooted.lt_size below)] at recorded
    rw [isLinked_setLink (rooted.lt_size below)]
    split at recorded
    · cases recorded
      exact ⟨by omega, .inr linked⟩
    · obtain ⟨climbs, targetLinked⟩ := rooted.climbs otherBelow recorded
      exact ⟨climbs, .inr targetLinked⟩

/-- A rooted tree in which everything is linked has no fault. -/
theorem fault?_eq_none
    (rooted : tree.Rooted root)
    (complete : ∀ index ≤ root, tree.isLinked index = true) :
    tree.fault? = none := by
  have noLinkFault : ∀ index < root, tree.linkFault? root index = none := by
    intro index below
    obtain ⟨dominator, recorded, climbs, dominatorLinked⟩ :=
      rooted.exists_climb (complete index (Nat.le_of_lt below)) below
    have higher := (lt_of_climb?_eq_some climbs).2
    have inside := rooted.le_of_isLinked dominatorLinked
    simp [linkFault?, recorded, higher, inside]
  simp only [fault?, rooted.size_eq, rooted.root_link, ↓reduceIte, List.findSome?_eq_none_iff,
    List.mem_range]
  exact noLinkFault

/-- The linked ones among some indices have a nearest index. -/
theorem commonDominator_eq_ok
    (rooted : tree.Rooted root)
    (index : Nat)
    {indices : List Nat}
    {known : Nat}
    (member : known ∈ indices)
    (linked : tree.isLinked known = true) :
    ∃ dominator,
      tree.commonDominator index indices = .ok dominator ∧
        tree.isLinked dominator = true ∧
          tree.IsNearest indices dominator := by
  have inFilter : known ∈ indices.filter tree.isLinked :=
    List.mem_filter.mpr ⟨member, linked⟩
  cases shape : indices.filter tree.isLinked with
  | nil => simp [shape] at inFilter
  | cons first rest =>
      have allLinked : ∀ each ∈ first :: rest, tree.isLinked each = true := by
        intro each isEach
        rw [← shape] at isEach
        exact (List.mem_filter.mp isEach).2
      obtain ⟨firstLinked, restLinked⟩ := List.forall_mem_cons.mp allLinked
      obtain ⟨dominator, found⟩ :=
        exists_meetAll_of_shared (rooted.root_mem_ascent firstLinked)
          fun each isEach => rooted.root_mem_ascent (restLinked each isEach)
      have shared := mem_ascent_meetAll found
      refine ⟨dominator, by simp only [commonDominator, shape, found], ?_, ?_⟩
      · exact rooted.isLinked_of_mem_ascent firstLinked
          ((shared dominator).mp (self_mem_ascent tree dominator)).1
      · intro target
        rw [shared target, ← List.forall_mem_cons (p := (target ∈ tree.ascent ·)), ← shape]
        simp only [List.mem_filter, and_imp]

end Rooted

/-- Without a linked index there is no nearest one. -/
theorem commonDominator_eq_error
    {tree : DominatorTree}
    {indices : List Nat}
    (unlinked : ∀ other ∈ indices, tree.isLinked other = false)
    (index : Nat) :
    tree.commonDominator index indices = .error (.unresolvable index) := by
  have nothing : indices.filter tree.isLinked = [] := by
    rw [List.filter_eq_nil_iff]
    intro other isOther
    simp [unlinked other isOther]
  simp [commonDominator, nothing]

/-- At most one index is nearest to given ones. -/
theorem IsNearest.unique
    {tree : DominatorTree}
    {indices : List Nat}
    {first second : Nat}
    (isFirst : tree.IsNearest indices first)
    (isSecond : tree.IsNearest indices second) :
    first = second := by
  have upper : first ∈ tree.ascent second :=
    (isSecond first).mpr ((isFirst first).mp (self_mem_ascent tree first))
  have lower : second ∈ tree.ascent first :=
    (isFirst second).mpr ((isSecond second).mp (self_mem_ascent tree second))
  exact Nat.le_antisymm (le_of_mem_ascent lower) (le_of_mem_ascent upper)

end DominatorTree

end Dominance
