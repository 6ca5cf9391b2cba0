import Tabletop.Dice.Expression
import Tabletop.Random.Uniform

/-!
# Rolling

Dice are rolled face by face. The faces are added up and the modifier is added at the end, each sum
held within its bounds.
-/

namespace Tabletop.Dice

open Tabletop.Random

/-- The face calls for another roll of its die. A one-sided die would go on forever, so it never does. -/
def explodes (d : Dice) (face : Nat) : Bool := d.exploding && 1 < d.sides && face = d.sides

/-- Faces until `wanted` of them have not exploded, put in front of those already `seen`. -/
def facesFrom (d : Dice) : (tries wanted : Nat) → (seen : List Nat) → Draw (List Nat)
  | _, 0, seen => pure seen
  | 0, _ + 1, _ => fun _ => none
  | tries + 1, wanted + 1, seen => do
    let face ← Draw.face d.sides
    facesFrom d tries (if d.explodes face then wanted + 1 else wanted) (face :: seen)

/-- The faces of one roll, in the order they fall. Each takes a word at least. -/
def faces (d : Dice) : Draw (List Nat) := fun s =>
  (do return (← d.facesFrom s.supply d.count []).reverse : Draw (List Nat)) s

/-- `n`, or the nearest bound. -/
def clamp (low high n : Int) : Int := max low (min n high)

/-- A sum of 64 bits. One that goes beyond them stays at its bound. -/
def held (sum : Int) : Int := clamp (-0x8000000000000000) 0x7FFFFFFFFFFFFFFF sum

/-- The result of a roll that shows `faces`: never below zero, and a count of 32 bits. -/
def total (d : Dice) (faces : List Nat) : Nat :=
  let sum := faces.foldl (fun (sum : Int) (face : Nat) => held (sum + face)) 0
  (clamp 0 0xFFFFFFFF (held (sum + d.modifier))).toNat

def roll (d : Dice) : Draw Nat := do return d.total (← d.faces)

/-- Reads the first dice in a text and rolls them. -/
def evaluate (text : String) : Roll Error Nat := do
  let d ← parse text
  d.roll

end Tabletop.Dice
