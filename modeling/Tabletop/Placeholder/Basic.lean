import Tabletop.Text.Blank

/-!
# Placeholders

A placeholder stands in braces in a text and refers to an entity: `{2d4 goblin 1d6}` asks for 2d4
goblins and a roll of 1d6 on the goblin table, `{3 goblin}` for three of them. `{1d20}` refers to
no entity and is a bare roll.
-/

namespace Tabletop

/-- A placeholder whose dice have been rolled. A text that is not written in the token is empty. -/
structure Placeholder where
  /-- The placeholder as written, braces included. -/
  token : String
  /-- The dice that gave the quantity. -/
  quantityDice : String
  /-- The normalized name of the entity. -/
  entity : String
  /-- The dice that gave the result. -/
  resultDice : String
  quantity : Nat
  /-- The number to look up in the entity's table. -/
  result : Option Int
deriving Repr, DecidableEq

namespace Placeholder

/-- The placeholder for so many of an entity, as if it were written out. -/
def ofEntity (entity : String) (quantity : Nat) : Placeholder :=
  ⟨"\x7b" ++ toString quantity ++ " " ++ entity ++ "\x7d", "", entity, "", quantity, none⟩

def isBareRoll (p : Placeholder) : Bool := p.entity.isEmpty

/-- The text that takes the place of the token. -/
def rolledText (p : Placeholder) : String := Text.trimmed (toString p.quantity ++ " " ++ p.entity)

end Placeholder

end Tabletop
