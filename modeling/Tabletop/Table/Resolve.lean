import Tabletop.Table.Basic
import Tabletop.Dice.Roll

/-!
# Resolving a table

A roll outside the table is moved to its nearest end, and a roll in a gap takes the outcome below it.
-/

namespace Tabletop.Table

open Tabletop.Random

/-- The outcome of the highest covered roll that is not above `roll`. -/
def outcomeAt? (t : Table) (roll : Int) : Option String :=
  (t.coverage.filter fun (covered, _) => covered ≤ roll).getLast?.map Prod.snd

/-- The number to look up: the one given, else the table's own roll, else any number it spans. -/
def draw (t : Table) (given : Option Int) (low high : Int) : Roll Error Int :=
  match given, t.roll with
  | some n, _ => pure n
  | none, some dice => do return (← (Dice.evaluate dice).adapt Error.dice : Nat)
  | none, none => (Draw.between low high : Draw Int)

/-- An outcome of the table. -/
def resolve (t : Table) (given : Option Int) : Roll Error String :=
  match t.lowest?, t.highest? with
  | some low, some high => do
    let n ← t.draw given low high
    match t.outcomeAt? (Dice.clamp low high n) with
    | some outcome => return outcome
    | none => throw .empty
  | _, _ => throw .empty

end Tabletop.Table
