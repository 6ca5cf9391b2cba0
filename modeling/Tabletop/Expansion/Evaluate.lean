import Tabletop.Expansion.Basic

/-!
# Evaluating one placeholder

The text of one placeholder that was written on its own.
-/

namespace Tabletop

open Tabletop.Random

/-- An expansion as Markdown: the tallied entities, if any, then all unique nodes in tree order. -/
def Expansion.report (e : Expansion) : String :=
  let tallied := e.nonUnique.entries.map fun entry =>
    "\n" ++ toString entry.count ++ " " ++ entry.name ++ "  \n\n" ++ entry.text
  let unique := e.tree.uniqueNodes.map fun node => "\n" ++ node.text
  Text.trimmed <|
    (if e.nonUnique.isEmpty then "" else "### Non Unique Entities:\n" ++ String.join tallied) ++
      "\n" ++ "### Unique Entities, Full Tree:\n" ++ String.join unique

namespace Expander

open Expansion (Mode)

/-- A text in braces, unless it already is. -/
def braced (text : String) : String :=
  let cs := Text.trim text.toList
  if cs.head? = some '{' && cs.getLast? = some '}' then String.ofList cs
  else "\x7b" ++ String.ofList cs ++ "\x7d"

/-- The one placeholder that a text is. -/
def parseSingle (text : String) : Roll Expansion.Error Placeholder := do
  match ← read (braced text) with
  | [p] => return p
  | found => throw (.notSingle found.length)

/-- The text of an entity on its own. Rolled, the quantity heads it. -/
def flatText (x : Expander) (mode : Mode) (p : Placeholder) (e : Entity) (nested : List Placeholder) : String :=
  if mode.rolls then
    toString p.quantity ++ " " ++ e.name ++ "  \n" ++ x.displayText e none nested
  else x.displayText e none []

/--
The text of one placeholder: the number of a bare roll, the text of an entity that refers to no
other, or the report of a whole expansion.
-/
def evaluate (x : Expander) (mode : Mode) (text : String) : Roll Expansion.Error String := do
  let p ← parseSingle text
  if p.isBareRoll then
    return toString (← (Dice.evaluate p.quantityDice).adapt .dice)
  else
    let e ← x.find p.entity
    let nested ← read (x.renderWith (x.readingOptions false) e none)
    if mode.expands && Placeholder.refersToEntity nested then
      return (← x.expand mode p).report
    else
      return x.flatText mode p e nested

/-- Expands the one placeholder that a text is. -/
def expandText (x : Expander) (mode : Mode) (text : String) : Roll Expansion.Error Expansion := do
  x.expand mode (← parseSingle text)

end Expander

end Tabletop
