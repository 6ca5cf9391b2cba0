import Tabletop.Dice.Basic
import Tabletop.Text.Integer

/-!
# Dice expressions

Finding dice in a text and reading their numbers. An expression may be written in the digits of any
script, but only ASCII digits have a value, so the search and the reading are two steps.
-/

namespace Tabletop.Dice

/-- The parts of a dice expression as they are written. -/
structure Expression where
  /-- Empty where no count is written. -/
  count : List Char
  sides : List Char
  exploding : Bool
  /-- The sign and the digits, empty where no modifier is written. -/
  modifier : List Char
deriving Repr, DecidableEq

namespace Expression

def text (e : Expression) : List Char :=
  e.count ++ 'd' :: e.sides ++ (if e.exploding then ['x'] else []) ++ e.modifier

/-- The modifier that a text starts with, and the text after it. -/
def modifierOf : List Char → List Char × List Char
  | [] => ([], [])
  | c :: cs =>
    if (c = '+' || c = '-') && !(cs.takeWhile Text.isDigit).isEmpty then
      (c :: cs.takeWhile Text.isDigit, cs.dropWhile Text.isDigit)
    else ([], c :: cs)

/-- The mark of exploding dice at the start of a text, and the text after it. -/
def explodingOf : List Char → Bool × List Char
  | 'x' :: cs => (true, cs)
  | cs => (false, cs)

/-- The expression that a text starts with, as long as it goes, and the text after it. -/
def leading? (cs : List Char) : Option (Expression × List Char) :=
  match cs.dropWhile Text.isDigit with
  | 'd' :: rest =>
    let sides := rest.takeWhile Text.isDigit
    if sides.isEmpty then none
    else
      let (exploding, rest) := explodingOf (rest.dropWhile Text.isDigit)
      let (modifier, rest) := modifierOf rest
      some (⟨cs.takeWhile Text.isDigit, sides, exploding, modifier⟩, rest)
  | _ => none

/-- The first expression in a text. -/
def first? : List Char → Option Expression
  | [] => none
  | c :: cs =>
    match leading? (c :: cs) with
    | some (e, _) => some e
    | none => first? cs

/-- The first expression in a text after which only `close` is left. -/
def before? (close : List Char) : List Char → Option Expression
  | [] => none
  | c :: cs =>
    match leading? (c :: cs) with
    | some (e, rest) => if rest = close then some e else before? close cs
    | none => before? close cs

/-- The dice that an expression asks for, unless a number is out of range. -/
def dice? (e : Expression) : Option Dice := do
  let count ← if e.count.isEmpty then some 1 else Text.count? e.count
  let sides ← Text.count? e.sides
  let modifier ← if e.modifier.isEmpty then some 0 else Text.integer? e.modifier
  if sides = 0 then none else some ⟨count, sides, e.exploding, modifier⟩

end Expression

/-- The first dice in a text. -/
def parse (text : String) : Except Error Dice :=
  match (Expression.first? text.toList).bind Expression.dice? with
  | some d => .ok d
  | none => .error (.malformed text)

end Tabletop.Dice
