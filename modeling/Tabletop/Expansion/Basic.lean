import Tabletop.Expansion.Node
import Tabletop.Expansion.Tally
import Tabletop.Expansion.Tree

/-!
# Expansion

A placeholder is expanded breadth first: the placeholders in the text of a node wait until all that
came before them are resolved. Content may refer to itself, so a tree has a capacity, and what is
still waiting when it is full is left out.
-/

namespace Tabletop

open Tabletop.Random

structure Expansion where
  tree : Tree := {}
  /-- The entities of the nodes that are not unique. -/
  nonUnique : Tally := {}
deriving Repr, DecidableEq

namespace Expansion

/-- A tree takes so many nodes. -/
def capacity : Nat := 100

/-- A placeholder that waits to be resolved. -/
structure Request where
  placeholder : Placeholder
  /-- The first of a group. A group stands under the node that is newest when its turn comes. -/
  opens : Bool
deriving Repr, DecidableEq

/-- Requests that stand under the same node. -/
def group : List Placeholder → List Request
  | [] => []
  | p :: rest => ⟨p, true⟩ :: rest.map (⟨·, false⟩)

/-- A placeholder as often as its quantity asks, though no more often than a tree has room. -/
def repeated (p : Placeholder) : List Placeholder := List.replicate (min p.quantity capacity) p

/-- The requests for the first placeholder. -/
def rootRequests (root : Placeholder) : List Request :=
  if root.isBareRoll then [] else group (repeated root)

/-- The requests for the placeholders in a node's text. Rolled, each makes a group of its own. -/
def requestsOf (mode : Mode) (nested : List Placeholder) : List Request :=
  let referring := nested.filter fun p => !p.isBareRoll
  if !mode.expands then []
  else if mode.rolls then referring.flatMap fun p => group (repeated p)
  else group referring

/-- An expansion on its way. -/
structure Progress where
  done : Expansion
  /-- The node that the current group stands under. The first group stands under none. -/
  parent : Option Nat
  waiting : List Request

end Expansion

namespace Expander

open Expansion (Mode Request Progress)

/-- Records an entity that is not unique. Its text is rendered the first time only. -/
def tallied (x : Expander) (p : Placeholder) (r : Resolved) (tally : Tally) : Tally :=
  let text := if (tally.get? p.entity).isSome then "" else x.displayText r.entity r.outcome []
  tally.record p.entity text

/-- Adds the node of a resolved request. Nodes of the first group are always unique. -/
def added (x : Expander) (mode : Mode) (r : Request) (node : Resolved) (s : Progress) : Progress :=
  let p := r.placeholder
  let parent := if r.opens then s.done.tree.lastId? else s.parent
  let unique := parent.isNone || node.isRandom
  let text :=
    if unique then x.displayText node.entity node.outcome (if mode.rolls then node.nested else []) else ""
  let nonUnique := if unique then s.done.nonUnique else x.tallied p node s.done.nonUnique
  ⟨⟨s.done.tree.push parent p unique text, nonUnique⟩, parent,
    s.waiting ++ Expansion.requestsOf mode node.nested⟩

/-- Resolves what is waiting, until nothing is or the tree has no more room. -/
def run (x : Expander) (mode : Mode) : (room : Nat) → Progress → Roll Expansion.Error Expansion
  | 0, s => pure s.done
  | room + 1, s =>
    match s.waiting with
    | [] => pure s.done
    | r :: waiting => do
      let node ← x.resolve r.placeholder mode.rolls
      x.run mode room (x.added mode r node { s with waiting })

def expand (x : Expander) (mode : Mode) (root : Placeholder) : Roll Expansion.Error Expansion :=
  x.run mode Expansion.capacity ⟨{}, none, Expansion.rootRequests root⟩

end Expander

end Tabletop
