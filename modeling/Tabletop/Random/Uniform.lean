import Tabletop.Random.Source

/-!
# Uniform draws

A drawn number is multiplied by the size of the range. The high half of the product is the result,
and the low half says whether to keep it: numbers above the zone are drawn again, so that every
result is equally likely.
-/

namespace Tabletop.Random

/-- The greatest low half that is kept: the size shifted to the top of the width, less one. -/
def zone (bits size : Nat) : Nat := size <<< (bits - 1 - size.log2) - 1

/-- The result that a drawn number gives below `size`, if it is kept. -/
def scaled? (bits size drawn : Nat) : Option Nat :=
  if drawn * size % (1 <<< bits) ≤ zone bits size then some ((drawn * size) >>> bits) else none

namespace Draw

/-- A number below `size`, from numbers of `words` words. Each try takes a word at least. -/
def below (words size : Nat) : Draw Nat := fun s =>
  firstAccepted (number words) (scaled? (32 * words) size) s.supply s

/-- A face of a die, from one to `sides`. -/
def face (sides : Nat) : Draw Nat := do
  return 1 + (← below 1 sides)

/-- A number from `low` to `high`, both of 64 bits. The full range takes the number as drawn. -/
def between (low high : Int) : Draw Int := do
  let size := (high - low + 1).toNat
  if size = 0x10000000000000000 then
    return Int.bmod (← number 2) 0x10000000000000000
  else
    return low + (← below 2 size)

end Draw

end Tabletop.Random
