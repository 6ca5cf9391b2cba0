/-!
# Dice

A roll to be made: some dice of one kind and a number added to their sum. It is written `2d6`,
`d20`, `3d8x+2`: an absent count means one die, and `x` marks dice that explode.
-/

namespace Tabletop

structure Dice where
  count : Nat
  sides : Nat
  /-- A die that shows its highest face is kept and rolled again. -/
  exploding : Bool
  modifier : Int
deriving Repr, DecidableEq

namespace Dice

inductive Error where
  /-- The text holds no dice expression, or one with a number out of range. -/
  | malformed (text : String)
deriving Repr, DecidableEq

def Error.message : Error → String
  | malformed text => s!"malformed dice notation: '{text}'"

/-- The ranges that written dice keep to: counts of 32 bits and a modifier of 64. -/
structure InRange (d : Dice) : Prop where
  count_lt : d.count < 0x100000000
  sides_pos : 0 < d.sides
  sides_lt : d.sides < 0x100000000
  le_modifier : -0x8000000000000000 ≤ d.modifier
  modifier_lt : d.modifier < 0x8000000000000000

/-- A number with its sign, plus included. -/
def signed (n : Int) : String := if n < 0 then toString n else "+" ++ toString n

/-- The shortest way to write the dice, with the count always given. -/
def text (d : Dice) : String :=
  toString d.count ++ "d" ++ toString d.sides ++ (if d.exploding then "x" else "") ++
    (if d.modifier = 0 then "" else signed d.modifier)

end Dice

end Tabletop
