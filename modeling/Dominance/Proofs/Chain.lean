import Mathlib.Data.List.Chain
import Dominance.Build.Pass
import Dominance.Tree.Query

namespace Dominance.DominatorTree

/-!
# Chains of a dominator tree

The chain of an index is the list of indices met by following climbing links.
Chains climb, a chain goes on as the chain of each of its members, and so two
members of one chain are ordered like the indices.

The search for the nearest common index is described by what it does to chains:
the chain of the index that is found consists of what the two given chains share.
Nothing is assumed about the links here.
-/

theorem ascent_of_ends
    {tree : DominatorTree}
    {index : Nat}
    (ends : tree.climb? index = none) :
    tree.ascent index = [index] := by
  rw [ascent]
  split <;> simp_all

/-- A chain that climbs goes on as the chain of the next index. -/
theorem ascent_of_climbs
    {tree : DominatorTree}
    {index dominator : Nat}
    (climbs : tree.climb? index = some dominator) :
    tree.ascent index = index :: tree.ascent dominator := by
  rw [ascent]
  split <;> simp_all

/-- A chain starts with its index and goes on where the link leads. -/
theorem mem_ascent_iff
    {tree : DominatorTree}
    {index target : Nat} :
    target ∈ tree.ascent index ↔
      target = index ∨
        ∃ dominator,
          tree.climb? index = some dominator ∧
            target ∈ tree.ascent dominator := by
  cases climbs : tree.climb? index with
  | none => simp [ascent_of_ends climbs]
  | some dominator => simp [ascent_of_climbs climbs]

@[simp] theorem self_mem_ascent
    (tree : DominatorTree)
    (index : Nat) :
    index ∈ tree.ascent index :=
  mem_ascent_iff.mpr (.inl rfl)

theorem mem_ascent_of_climb
    {tree : DominatorTree}
    {index dominator target : Nat}
    (climbs : tree.climb? index = some dominator)
    (member : target ∈ tree.ascent dominator) :
    target ∈ tree.ascent index :=
  mem_ascent_iff.mpr (.inr ⟨dominator, climbs, member⟩)

/-- What stands on a chain after its first index is on the chain of the next one. -/
theorem mem_ascent_of_ne
    {tree : DominatorTree}
    {index dominator target : Nat}
    (climbs : tree.climb? index = some dominator)
    (member : target ∈ tree.ascent index)
    (different : target ≠ index) :
    target ∈ tree.ascent dominator := by
  rcases mem_ascent_iff.mp member with isIndex | ⟨next, climbsNext, higher⟩
  · exact (different isIndex).elim
  · rw [climbs] at climbsNext
    cases climbsNext
    exact higher

theorem eq_of_mem_ascent
    {tree : DominatorTree}
    {index target : Nat}
    (ends : tree.climb? index = none)
    (member : target ∈ tree.ascent index) :
    target = index := by
  rcases mem_ascent_iff.mp member with isIndex | ⟨next, climbs, _⟩
  · exact isIndex
  · rw [ends] at climbs
    cases climbs

/-- A chain never falls below its first index. -/
theorem le_of_mem_ascent
    {tree : DominatorTree}
    {index target : Nat}
    (member : target ∈ tree.ascent index) :
    index ≤ target := by
  fun_induction tree.ascent index with
  | case1 index ends => simpa using Nat.le_of_eq (List.mem_singleton.mp member).symm
  | case2 index dominator climbs inductionHypothesis =>
      have higher := (lt_of_climb?_eq_some climbs).2
      rcases List.mem_cons.mp member with isIndex | isAbove
      · exact Nat.le_of_eq isIndex.symm
      · exact Nat.le_trans (Nat.le_of_lt higher) (inductionHypothesis isAbove)

theorem head?_ascent
    (tree : DominatorTree)
    (index : Nat) :
    (tree.ascent index).head? = some index := by
  cases climbs : tree.climb? index with
  | none => rw [ascent_of_ends climbs, List.head?_cons]
  | some dominator => rw [ascent_of_climbs climbs, List.head?_cons]

/-- From member to member a chain follows links that climb. -/
theorem isChain_ascent
    (tree : DominatorTree)
    (index : Nat) :
    (tree.ascent index).IsChain fun lower higher =>
      lower < higher ∧ tree.link? lower = some higher := by
  fun_induction tree.ascent index with
  | case1 index ends => exact List.isChain_singleton index
  | case2 index dominator climbs inductionHypothesis =>
      refine List.isChain_cons.mpr ⟨?_, inductionHypothesis⟩
      intro next isNext
      rw [tree.head?_ascent, Option.mem_some_iff] at isNext
      subst isNext
      exact ⟨(lt_of_climb?_eq_some climbs).2, (Option.filter_eq_some_iff.mp climbs).1⟩

/-- The chain of an index on a chain is a part of it. -/
theorem mem_ascent_trans
    {tree : DominatorTree}
    {index middle target : Nat}
    (lower : middle ∈ tree.ascent index)
    (upper : target ∈ tree.ascent middle) :
    target ∈ tree.ascent index := by
  fun_induction tree.ascent index with
  | case1 index ends =>
      obtain rfl := List.mem_singleton.mp lower
      have isIndex := eq_of_mem_ascent ends upper
      simp [isIndex]
  | case2 index dominator climbs inductionHypothesis =>
      rcases List.mem_cons.mp lower with isIndex | isAbove
      · subst isIndex
        rcases mem_ascent_iff.mp upper with isMiddle | ⟨next, climbsNext, higher⟩
        · exact isMiddle ▸ List.mem_cons_self
        · rw [climbs] at climbsNext
          cases climbsNext
          exact List.mem_cons_of_mem _ higher
      · exact List.mem_cons_of_mem _ (inductionHypothesis isAbove)

/-- Chains agree in trees whose links agree from an index on. -/
theorem ascent_congr
    {first second : DominatorTree}
    {index : Nat}
    (agree : ∀ higher, index ≤ higher → first.climb? higher = second.climb? higher) :
    first.ascent index = second.ascent index := by
  fun_induction first.ascent index with
  | case1 index ends =>
      rw [agree index (Nat.le_refl index)] at ends
      exact (ascent_of_ends ends).symm
  | case2 index dominator climbs inductionHypothesis =>
      have higher := (lt_of_climb?_eq_some climbs).2
      rw [agree index (Nat.le_refl index)] at climbs
      rw [ascent_of_climbs climbs,
        inductionHypothesis fun above isAbove => agree above (by omega)]

/-- The chain of the meeting index is what two chains share. -/
theorem mem_ascent_meet
    {tree : DominatorTree}
    {first second common : Nat}
    (found : tree.meet first second = .ok common)
    (target : Nat) :
    target ∈ tree.ascent common ↔
      target ∈ tree.ascent first ∧ target ∈ tree.ascent second := by
  fun_induction tree.meet first second with
  | case1 first => cases found; simp
  | case2 first second different ordered ends => cases found
  | case3 first second different ordered dominator climbs inductionHypothesis =>
      rw [inductionHypothesis found]
      refine and_congr_left fun onSecond => ?_
      have above := le_of_mem_ascent onSecond
      exact ⟨mem_ascent_of_climb climbs,
        fun onFirst => mem_ascent_of_ne climbs onFirst (by omega)⟩
  | case4 first second different ordered ends => cases found
  | case5 first second different ordered dominator climbs inductionHypothesis =>
      rw [inductionHypothesis found]
      refine and_congr_right fun onFirst => ?_
      have above := le_of_mem_ascent onFirst
      exact ⟨mem_ascent_of_climb climbs,
        fun onSecond => mem_ascent_of_ne climbs onSecond (by omega)⟩

/-- Two chains that share an index meet. -/
theorem exists_meet_of_shared
    {tree : DominatorTree}
    {first second shared : Nat}
    (onFirst : shared ∈ tree.ascent first)
    (onSecond : shared ∈ tree.ascent second) :
    ∃ common, tree.meet first second = .ok common := by
  fun_induction tree.meet first second with
  | case1 first => exact ⟨first, rfl⟩
  | case2 first second different ordered ends =>
      have isFirst := eq_of_mem_ascent ends onFirst
      have := le_of_mem_ascent onSecond
      omega
  | case3 first second different ordered dominator climbs inductionHypothesis =>
      have := le_of_mem_ascent onSecond
      exact inductionHypothesis (mem_ascent_of_ne climbs onFirst (by omega)) onSecond
  | case4 first second different ordered ends =>
      have isSecond := eq_of_mem_ascent ends onSecond
      have := le_of_mem_ascent onFirst
      omega
  | case5 first second different ordered dominator climbs inductionHypothesis =>
      have := le_of_mem_ascent onFirst
      exact inductionHypothesis onFirst (mem_ascent_of_ne climbs onSecond (by omega))

/-- The chain of the meeting index of several chains is what all of them share. -/
theorem mem_ascent_meetAll
    {tree : DominatorTree}
    {nearest common : Nat}
    {others : List Nat}
    (found : tree.meetAll nearest others = .ok common)
    (target : Nat) :
    target ∈ tree.ascent common ↔
      target ∈ tree.ascent nearest ∧ ∀ other ∈ others, target ∈ tree.ascent other := by
  induction others generalizing nearest with
  | nil =>
      cases found
      simp
  | cons next rest inductionHypothesis =>
      simp only [meetAll] at found
      split at found
      · cases found
      · rename_i between met
        rw [inductionHypothesis found, mem_ascent_meet met]
        rw [List.forall_mem_cons, and_assoc, and_left_comm]

/-- Several chains that share an index meet. -/
theorem exists_meetAll_of_shared
    {tree : DominatorTree}
    {nearest shared : Nat}
    {others : List Nat}
    (onNearest : shared ∈ tree.ascent nearest)
    (onOthers : ∀ other ∈ others, shared ∈ tree.ascent other) :
    ∃ common, tree.meetAll nearest others = .ok common := by
  induction others generalizing nearest with
  | nil => exact ⟨nearest, rfl⟩
  | cons next rest inductionHypothesis =>
      obtain ⟨onNext, onRest⟩ := List.forall_mem_cons.mp onOthers
      obtain ⟨between, met⟩ := exists_meet_of_shared onNext onNearest
      have onBetween : shared ∈ tree.ascent between :=
        (mem_ascent_meet met shared).mpr ⟨onNext, onNearest⟩
      obtain ⟨common, found⟩ := inductionHypothesis onBetween onRest
      exact ⟨common, by simp only [meetAll, met, found]⟩

/-- The walk that stops early finds exactly the members of a chain. -/
theorem reaches_eq_true_iff
    {tree : DominatorTree}
    {target current : Nat} :
    tree.reaches target current = true ↔ target ∈ tree.ascent current := by
  fun_induction tree.reaches target current with
  | case1 current below ends =>
      simp only [Bool.false_eq_true, false_iff]
      intro member
      have := eq_of_mem_ascent ends member
      omega
  | case2 current below dominator climbs inductionHypothesis =>
      rw [inductionHypothesis]
      exact ⟨mem_ascent_of_climb climbs,
        fun member => mem_ascent_of_ne climbs member (by omega)⟩
  | case3 current notBelow =>
      simp only [decide_eq_true_eq]
      constructor
      · intro isTarget
        exact isTarget ▸ self_mem_ascent tree current
      · intro member
        have := le_of_mem_ascent member
        omega

end Dominance.DominatorTree
