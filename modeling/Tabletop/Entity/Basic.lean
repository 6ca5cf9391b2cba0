import Tabletop.Table.Basic
import Tabletop.Name

/-!
# Entities

An entity is a record of content: a creature, a thing, a place, an ability. Its fields are texts and
lists of texts, and it may have a table. An empty field counts as absent.
-/

namespace Tabletop

structure Entity where
  name : String := ""
  /-- The normalized name, which an entity gets when it enters a compendium. -/
  cleanName : String := ""
  hp : String := ""
  scores : List String := []
  skills : List String := []
  holds : String := ""
  tags : List String := []
  requirements : List String := []
  cost : List String := []
  speed : String := ""
  target : String := ""
  toHit : String := ""
  attacks : List String := []
  effect : String := ""
  table : Option Table := none
  flavorText : String := ""
  fullText : String := ""
  encumbrance : String := ""
  /-- Marks for the keeper of the content. They are not shown. -/
  metaTags : List String := []
deriving Repr, DecidableEq

namespace Entity

/-- An entity with a name and an effect. -/
def ofEffect (name effect : String) : Entity :=
  { name, effect, cleanName := Name.normalize name }

def hasTable (e : Entity) : Bool := e.table.isSome

def hasMetaTag (e : Entity) (tag : String) : Bool := e.metaTags.contains tag

end Entity

end Tabletop
