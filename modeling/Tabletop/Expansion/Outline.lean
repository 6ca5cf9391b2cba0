import Tabletop.Expansion.Tree

/-!
# Outlines

A tree as an indented list: each root with everything below it, children in order.
-/

namespace Tabletop.Tree

/-- A node and all below it, each with its level. No branch is longer than the tree is large. -/
def below (t : Tree) : (room level id : Nat) → List (Nat × Node)
  | 0, _, _ => []
  | room + 1, level, id =>
    match t.get? id with
    | some node => (level, node) :: node.children.flatMap (t.below room (level + 1))
    | none => []

/-- All nodes with their levels, under the roots they stand below. -/
def outline (t : Tree) : List (Nat × Node) := t.roots.flatMap fun node => t.below t.size 0 node.id

/-- One line of an outline. Unique nodes are marked. -/
def outlineLine (level : Nat) (node : Node) : String :=
  String.join (List.replicate level "  ") ++ (if node.unique then "*" else " ") ++
    s!" [{node.id}] {node.entity}"

end Tabletop.Tree
