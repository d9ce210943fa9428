import Mathlib.Data.List.Nodup
import Dominance.Tree.Query

namespace Dominance.DominatorTree

/-!
# Looking up addresses

An address is looked up from the highest index down.  If no address is repeated,
looking up addresses and looking up indices are inverse to each other.
-/

/-- The lookup finds the highest index of an address. -/
theorem lastIndex?_eq_some_iff
    {order : Array Address}
    {address : Address}
    {bound index : Nat} :
    lastIndex? order address bound = some index ↔
      index < bound ∧
        order[index]? = some address ∧
          ∀ later, index < later → later < bound → order[later]? ≠ some address := by
  induction bound with
  | zero => simp [lastIndex?]
  | succ bound inductionHypothesis =>
      have found :
          order[bound]?.any (· = address) = true ↔ order[bound]? = some address := by
        cases order[bound]? <;> simp
      simp only [lastIndex?]
      by_cases isLast : order[bound]? = some address
      · rw [if_pos (found.mpr isLast), Option.some.injEq]
        constructor
        · intro isBound
          subst isBound
          exact ⟨Nat.lt_succ_self bound, isLast, fun later above below => by omega⟩
        · rintro ⟨inside, _, isHighest⟩
          by_contra different
          exact isHighest bound (by omega) (Nat.lt_succ_self bound) isLast
      · rw [if_neg (fun accepted => isLast (found.mp accepted)), inductionHypothesis]
        constructor
        · rintro ⟨inside, isAddress, isHighest⟩
          refine ⟨by omega, isAddress, ?_⟩
          intro later above below
          rcases Nat.lt_or_eq_of_le (Nat.le_of_lt_succ below) with isBelow | isBound
          · exact isHighest later above isBelow
          · exact isBound ▸ isLast
        · rintro ⟨inside, isAddress, isHighest⟩
          have notBound : index ≠ bound := by
            intro isBound
            exact isLast (isBound ▸ isAddress)
          exact ⟨by omega, isAddress,
            fun later above below => isHighest later above (by omega)⟩

/-- An index that is found for an address belongs to it. -/
theorem address?_of_postorder?
    {tree : DominatorTree}
    {address : Address}
    {index : Nat}
    (found : tree.postorder? address = some index) :
    index < tree.size ∧ tree.address? index = some address := by
  obtain ⟨inside, isAddress, _⟩ := lastIndex?_eq_some_iff.mp found
  exact ⟨inside, isAddress⟩

theorem exists_lastIndex?
    {order : Array Address}
    {address : Address}
    {bound index : Nat}
    (isAddress : order[index]? = some address)
    (below : index < bound) :
    ∃ found, lastIndex? order address bound = some found := by
  induction bound with
  | zero => omega
  | succ bound inductionHypothesis =>
      simp only [lastIndex?]
      split
      · exact ⟨bound, rfl⟩
      · rename_i notLast
        refine inductionHypothesis (Nat.lt_of_le_of_ne (Nat.le_of_lt_succ below) ?_)
        intro isBound
        subst isBound
        simp [isAddress] at notLast

/-- An index is found for every address of a tree. -/
theorem exists_postorder?
    {tree : DominatorTree}
    {address : Address}
    {index : Nat}
    (isAddress : tree.address? index = some address) :
    ∃ found, tree.postorder? address = some found :=
  exists_lastIndex? isAddress (Array.getElem?_eq_some_iff.mp isAddress).1

/-- The addresses of a tree are those that stand at an index. -/
theorem contains_iff
    {tree : DominatorTree}
    {address : Address} :
    tree.contains address = true ↔ ∃ index, tree.address? index = some address := by
  rw [contains, Option.isSome_iff_exists]
  constructor
  · rintro ⟨index, found⟩
    exact ⟨index, (address?_of_postorder? found).2⟩
  · rintro ⟨index, isAddress⟩
    exact exists_postorder? isAddress

/-- No address stands at two indices. -/
def Distinct (tree : DominatorTree) : Prop :=
  ∀ (first second : Nat) (address : Address),
    tree.address? first = some address →
    tree.address? second = some address →
    first = second

/-- Without repetitions the two lookups are inverse. -/
theorem Distinct.postorder?_eq_some_iff
    {tree : DominatorTree}
    (distinct : tree.Distinct)
    {address : Address}
    {index : Nat} :
    tree.postorder? address = some index ↔ tree.address? index = some address := by
  constructor
  · intro found
    exact (address?_of_postorder? found).2
  · intro isAddress
    obtain ⟨other, found⟩ := exists_postorder? isAddress
    rw [found, distinct other index address (address?_of_postorder? found).2 isAddress]

/-- A list without repetitions gives a tree without repetitions. -/
theorem distinct_of_nodup
    {tree : DominatorTree}
    (noRepetition : tree.order.toList.Nodup) :
    tree.Distinct := by
  intro first second address isFirst isSecond
  rw [address?, ← Array.getElem?_toList] at isFirst isSecond
  obtain ⟨firstInside, _⟩ := List.getElem?_eq_some_iff.mp isFirst
  exact (List.getElem?_inj firstInside noRepetition).mp
    (isFirst.trans isSecond.symm)

end Dominance.DominatorTree
