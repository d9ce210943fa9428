import Dominance.Dot.Picture
import Dominance.Tree.Query

namespace Dominance.DominatorTree

/-!
# Picture of a dominator tree

The addresses are drawn from the highest index down, the root highlighted, and
an edge leads from every immediate dominator to what it dominates.
-/

/-- The drawn addresses, from the highest index down. -/
def vertices (tree : DominatorTree) : List Dot.Vertex :=
  tree.order.toList.zipIdx.reverse.map fun entry =>
    { address := entry.1
      label := entry.1.text
      highlighted := entry.2 + 1 == tree.size }

/-- The picture of a dominator tree. -/
def picture
    (tree : DominatorTree)
    (title : Option String) :
    Except DanglingLink Dot.Picture :=
  tree.toList.map fun links =>
    { name := "DomTree"
      subject := "Dominator tree"
      title := title
      vertices := tree.vertices
      edges := links.map Prod.swap }

/-- The picture of a dominator tree in the DOT language. -/
def dotText
    (tree : DominatorTree)
    (title : Option String) :
    Except DanglingLink String :=
  (tree.picture title).map Dot.Picture.text

end Dominance.DominatorTree
