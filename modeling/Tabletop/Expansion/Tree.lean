import Tabletop.Placeholder.Basic

/-!
# Trees of nodes

A tree grows by one node at a time. The id of a node is its position, and a node knows its children.
-/

namespace Tabletop

/-- A placeholder that has been resolved. -/
structure Node where
  id : Nat
  /-- The normalized name of the entity. -/
  entity : String
  children : List Nat
  /-- Whether the text came out of a roll. Other nodes have no text of their own. -/
  unique : Bool
  text : String
  placeholder : Placeholder
deriving Repr, DecidableEq

structure Tree where
  nodes : List Node := []
deriving Repr, DecidableEq

namespace Tree

def size (t : Tree) : Nat := t.nodes.length

def isEmpty (t : Tree) : Bool := t.nodes.isEmpty

def get? (t : Tree) (id : Nat) : Option Node := t.nodes[id]?

/-- The id of the newest node. -/
def lastId? (t : Tree) : Option Nat := if t.isEmpty then none else some (t.size - 1)

/-- The nodes with `id` as a further child of `parent`. There may be no such parent. -/
def linked (nodes : List Node) (parent : Option Nat) (id : Nat) : List Node :=
  match parent with
  | some p => nodes.modify p fun node => { node with children := node.children ++ [id] }
  | none => nodes

/-- Adds a node under a parent. -/
def push (t : Tree) (parent : Option Nat) (p : Placeholder) (unique : Bool) (text : String) : Tree :=
  ⟨linked t.nodes parent t.size ++ [⟨t.size, p.entity, [], unique, text, p⟩]⟩

def uniqueNodes (t : Tree) : List Node := t.nodes.filter (·.unique)

/-- The nodes that are no child of another. -/
def roots (t : Tree) : List Node :=
  let children := t.nodes.flatMap (·.children)
  t.nodes.filter fun node => !children.contains node.id

end Tree

end Tabletop
