import Mathlib.Data.List.Perm.Subperm
import Dominance.Proofs.Queries

namespace Dominance.DominatorTree

/-!
# What verification decides

Verification compares each link with its own index and with the size of the tree, and looks
no further.  For any links whatsoever this decides where whole chains lead: a tree with
addresses passes exactly if its last index links to itself and the climb from each index
stays inside the tree and stops at the last index.

Nothing is assumed about a tree here.  Addresses may be repeated, and links may be missing,
lead to any index, or lead out of the tree.
-/

/-- The indices met from an index on by following links for as long as they climb. -/
structure IsClimb
    (tree : DominatorTree)
    (index : Nat)
    (met : List Nat) : Prop where
  starts : met.head? = some index
  follows :
    met.IsChain fun lower higher => lower < higher ∧ tree.link? lower = some higher
  stops :
    ∀ last ∈ met.getLast?, ∀ higher, tree.link? last = some higher → higher ≤ last

/-- The climb from an index stays inside the tree and stops at the last index. -/
def ClimbsToLast (tree : DominatorTree) (index : Nat) : Prop :=
  ∃ met,
    tree.IsClimb index met ∧
      (∀ each ∈ met, each < tree.size) ∧ met.getLast? = some (tree.size - 1)

variable {tree : DominatorTree} {index : Nat}

/-- An index climbs along a link to a higher one. -/
theorem climb?_eq_some_iff
    {dominator : Nat} :
    tree.climb? index = some dominator ↔
      index < dominator ∧ tree.link? index = some dominator := by
  rw [climb?, Option.filter_eq_some_iff, decide_eq_true_eq, and_comm]

/-- An index does not climb if its link is missing or leads to no higher one. -/
theorem climb?_eq_none_iff :
    tree.climb? index = none ↔
      ∀ higher, tree.link? index = some higher → higher ≤ index := by
  rw [climb?, Option.filter_eq_none_iff]
  simp

/-- A climb stops where it starts, or it follows a link and goes on as a climb. -/
theorem IsClimb.cases
    {met : List Nat}
    (isClimb : tree.IsClimb index met) :
    (tree.climb? index = none ∧ met = [index]) ∨
    ∃ dominator above,
      tree.climb? index = some dominator ∧
        met = index :: above ∧ tree.IsClimb dominator above := by
  obtain ⟨starts, follows, stops⟩ := isClimb
  obtain ⟨above, rfl⟩ := List.head?_eq_some_iff.mp starts
  cases above with
  | nil => exact .inl ⟨climb?_eq_none_iff.mpr (stops index rfl), rfl⟩
  | cons next above =>
      obtain ⟨climbs, followsAbove⟩ := List.isChain_cons_cons.mp follows
      rw [List.getLast?_cons_cons] at stops
      exact .inr ⟨next, next :: above, climb?_eq_some_iff.mpr climbs, rfl, rfl, followsAbove,
        stops⟩

theorem isClimb_singleton
    (ends : tree.climb? index = none) :
    tree.IsClimb index [index] where
  starts := rfl
  follows := List.isChain_singleton index
  stops := by
    intro last isLast
    rw [List.getLast?_singleton, Option.mem_some_iff] at isLast
    exact isLast ▸ climb?_eq_none_iff.mp ends

/-- A climb can begin one step lower. -/
theorem IsClimb.cons
    {dominator : Nat}
    {above : List Nat}
    (isClimb : tree.IsClimb dominator above)
    (climbs : tree.climb? index = some dominator) :
    tree.IsClimb index (index :: above) := by
  obtain ⟨starts, follows, stops⟩ := isClimb
  obtain ⟨further, rfl⟩ := List.head?_eq_some_iff.mp starts
  refine ⟨rfl, List.isChain_cons_cons.mpr ⟨climb?_eq_some_iff.mp climbs, follows⟩, ?_⟩
  rw [List.getLast?_cons_cons]
  exact stops

/-- There is one climb from each index, and its members are the chain of the index. -/
theorem isClimb_iff
    {met : List Nat} :
    tree.IsClimb index met ↔ met = tree.ascent index := by
  constructor
  · intro isClimb
    fun_induction tree.ascent index generalizing met with
    | case1 index ends =>
        rcases isClimb.cases with ⟨_, stays⟩ | ⟨dominator, above, climbs, _⟩
        · exact stays
        · rw [ends] at climbs
          cases climbs
    | case2 index dominator climbs inductionHypothesis =>
        rcases isClimb.cases with ⟨ends, _⟩ | ⟨next, above, climbsNext, rfl, goesOn⟩
        · rw [climbs] at ends
          cases ends
        · rw [climbs, Option.some.injEq] at climbsNext
          subst climbsNext
          rw [inductionHypothesis goesOn]
  · rintro rfl
    fun_induction tree.ascent index with
    | case1 index ends => exact isClimb_singleton ends
    | case2 index dominator climbs inductionHypothesis => exact inductionHypothesis.cons climbs

/-- A climb to the last index is a chain inside the tree that ends there. -/
theorem climbsToLast_iff :
    tree.ClimbsToLast index ↔
      (∀ each ∈ tree.ascent index, each < tree.size) ∧
        (tree.ascent index).getLast? = some (tree.size - 1) := by
  simp only [ClimbsToLast, isClimb_iff, exists_eq_left]

/-- An increasing list of indices is no longer than the tree. -/
theorem length_ascent_le
    (inside : ∀ each ∈ tree.ascent index, each < tree.size) :
    (tree.ascent index).length ≤ tree.size := by
  have nodup : (tree.ascent index).Nodup :=
    (tree.pairwise_ascent index).imp Nat.ne_of_lt
  have included : tree.ascent index ⊆ List.range tree.size :=
    fun each member => List.mem_range.mpr (inside each member)
  simpa using (List.subperm_of_subset nodup included).length_le

/-! ## Local links and whole climbs -/

theorem verify_of_size_eq_zero (isEmpty : tree.size = 0) : tree.verify = .ok () := by
  rw [verify, fault?, isEmpty]

/-- In a tree that passes verification every index climbs to the last one. -/
theorem climbsToLast_of_verify
    (verified : tree.verify = .ok ())
    (inside : index < tree.size) :
    tree.ClimbsToLast index := by
  obtain ⟨root, size_eq⟩ := Nat.exists_eq_succ_of_ne_zero (Nat.ne_zero_of_lt inside)
  obtain ⟨rooted, linked⟩ := rooted_of_verify size_eq verified
  refine climbsToLast_iff.mpr ⟨fun each => rooted.lt_size_of_mem_ascent inside, ?_⟩
  rw [rooted.getLast?_ascent (linked index (by omega)), size_eq, Nat.succ_sub_one]

/-- Below the last index, an index that climbs to it has a link that climbs. -/
theorem ClimbsToLast.exists_link
    {root : Nat}
    (size_eq : tree.size = root + 1)
    (climbsToLast : tree.ClimbsToLast index)
    (below : index < root) :
    ∃ dominator, tree.link? index = some dominator ∧ index < dominator ∧ dominator ≤ root := by
  obtain ⟨met, isClimb, inside, isLast⟩ := climbsToLast
  rw [size_eq, Nat.add_sub_cancel] at isLast
  rcases isClimb.cases with ⟨_, rfl⟩ | ⟨dominator, above, climbs, rfl, goesOn⟩
  · rw [List.getLast?_singleton, Option.some.injEq] at isLast
    omega
  · obtain ⟨higher, recorded⟩ := climb?_eq_some_iff.mp climbs
    have isMet : dominator ∈ above := List.mem_of_mem_head? goesOn.starts
    have dominatorInside := inside dominator (List.mem_cons_of_mem index isMet)
    exact ⟨dominator, recorded, higher, by omega⟩

/--
A tree passes verification exactly if it has no addresses, or its last index links to
itself and the climb from each index stays inside the tree and stops at the last index.  No
climb then takes more steps than there are indices besides the one it starts from.
-/
theorem verify_decides_climbs (tree : DominatorTree) :
    (tree.verify = .ok () ↔
      tree.size = 0 ∨
        tree.link? (tree.size - 1) = some (tree.size - 1) ∧
          ∀ index < tree.size, tree.ClimbsToLast index) ∧
    (tree.verify = .ok () →
      ∀ index < tree.size, ∀ met, tree.IsClimb index met → met.length - 1 ≤ tree.size - 1) := by
  constructor
  · rcases Nat.eq_zero_or_pos tree.size with isEmpty | nonempty
    · simp only [isEmpty, true_or, iff_true]
      exact verify_of_size_eq_zero isEmpty
    · obtain ⟨root, size_eq⟩ := Nat.exists_eq_succ_of_ne_zero (Nat.ne_of_gt nonempty)
      constructor
      · intro verified
        refine .inr ⟨?_, fun index inside => climbsToLast_of_verify verified inside⟩
        rw [size_eq]
        exact ((verify_eq_ok_iff size_eq).mp verified).1
      · rintro (isEmpty | ⟨rootLink, climbs⟩)
        · exact absurd isEmpty (Nat.ne_of_gt nonempty)
        · rw [size_eq] at rootLink
          refine (verify_eq_ok_iff size_eq).mpr ⟨rootLink, ?_⟩
          intro index below
          exact (climbs index (by omega)).exists_link size_eq below
  · intro verified index inside met isClimb
    obtain rfl := isClimb_iff.mp isClimb
    have staysInside := (climbsToLast_iff.mp (climbsToLast_of_verify verified inside)).1
    exact Nat.sub_le_sub_right (length_ascent_le staysInside) 1

/-- A chain through three places of one address. -/
def repeatedChain : DominatorTree :=
  ((ofOrder #[⟨5⟩, ⟨5⟩, ⟨5⟩]).setLink 0 1).setLink 1 2

/-- The chain passes verification, and the climb from its lowest index takes the most steps. -/
theorem repeatedChain_climbs :
    repeatedChain.verify = .ok () ∧
      (∀ index < 3, repeatedChain.ClimbsToLast index) ∧
        repeatedChain.IsClimb 0 [0, 1, 2] ∧ [0, 1, 2].length - 1 ≤ repeatedChain.size - 1 := by
  have verified : repeatedChain.verify = .ok () := by decide
  have isClimb : repeatedChain.IsClimb 0 [0, 1, 2] :=
    ((isClimb_singleton (by decide)).cons (by decide)).cons (by decide)
  obtain ⟨decides, bounded⟩ := verify_decides_climbs repeatedChain
  rcases decides.mp verified with isEmpty | ⟨_, climbs⟩
  · cases isEmpty
  · exact ⟨verified, climbs, isClimb, bounded verified 0 (by decide) _ isClimb⟩

end Dominance.DominatorTree
