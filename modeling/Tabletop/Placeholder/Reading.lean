import Tabletop.Dice.Roll
import Tabletop.Placeholder.Basic
import Tabletop.Placeholder.Token

/-!
# Reading placeholders

The placeholders of a text, with their dice rolled from one source in the order they are written.
-/

namespace Tabletop.Placeholder

open Tabletop.Random

/-- Rolls a written expression. The error names just the expression. -/
def rollWritten (e : Dice.Expression) : Roll Dice.Error Nat :=
  match e.dice? with
  | some d => d.roll
  | none => throw (.malformed (String.ofList e.text))

/-- The quantity that an amount stands for: one where none is written. -/
def Amount.quantity : Amount → Roll Dice.Error Nat
  | .absent => pure 1
  | .digits cs =>
    match Text.count? cs with
    | some n => pure n
    | none => throw (.malformed (String.ofList cs))
  | .dice e => rollWritten e

/-- The result that an amount stands for. Digits out of range stand for none. -/
def Amount.result : Amount → Roll Dice.Error (Option Int)
  | .absent => pure none
  | .digits cs => pure (Text.integer? cs)
  | .dice e => do return some (← rollWritten e : Nat)

/-- The text of the dice in an amount. -/
def Amount.diceText : Amount → String
  | .dice e => String.ofList e.text
  | _ => ""

/-- The placeholder that a token stands for. Without an entity there is no result to roll. -/
def ofToken (token : List Char) : Roll Dice.Error (Option Placeholder) := do
  let o := outline token
  if o.isKept then
    let resultPart := if o.entity.isEmpty then .absent else o.result
    let quantity ← o.quantity.quantity
    let result ← resultPart.result
    return some ⟨String.ofList token, o.quantity.diceText, o.entity, resultPart.diceText, quantity, result⟩
  else
    return none

/-- The placeholders of some tokens. -/
def ofTokens : List (List Char) → Roll Dice.Error (List Placeholder)
  | [] => pure []
  | token :: rest => do
    match ← ofToken token with
    | some p => return p :: (← ofTokens rest)
    | none => ofTokens rest

/-- The placeholders of a text, in the order they are written. -/
def parse (text : String) : Roll Dice.Error (List Placeholder) := ofTokens (tokens text.toList)

/-- Whether any of the placeholders refers to an entity. -/
def refersToEntity (placeholders : List Placeholder) : Bool :=
  placeholders.any fun p => !p.isBareRoll

end Tabletop.Placeholder
