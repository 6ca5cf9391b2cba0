import Tabletop.Entity.Basic
import Tabletop.Text.Search

/-!
# Escaping

Text that goes into a format is escaped, so that its characters stand for themselves. The table of
an entity is not escaped with its other fields.
-/

namespace Tabletop.Escape

/-- A small letter or a digit. An underscore behind one is escaped in typeset text. -/
def isSmall (c : Char) : Bool := ('a' ≤ c && c ≤ 'z') || Text.isAsciiDigit c

/-- Escapes underscores behind a small letter or digit. `small` says whether one was just passed. -/
def underscores : (small : Bool) → List Char → List Char
  | _, [] => []
  | small, c :: cs => (if c = '_' && small then ['\\', '_'] else [c]) ++ underscores (isSmall c) cs

/-- Emphasis marks are escaped and arrows become character references. -/
def markdown (text : String) : String :=
  let marked := text.toList.flatMap fun c => if c = '_' || c = '*' then ['\\', c] else [c]
  String.ofList (Text.replaceArrows "&#8658;".toList marked)

/-- Braces are left out, underscores escaped, and arrows become commands. -/
def typeset (text : String) : String :=
  let bare := text.toList.filter fun c => !(c = '{' || c = '}')
  String.ofList (Text.replaceArrows "$\\Rightarrow$".toList (underscores false bare))

/-- The entity with every shown text and list escaped, but not its table. -/
def fields (escape : String → String) (e : Entity) : Entity :=
  { e with
    name := escape e.name
    hp := escape e.hp
    scores := e.scores.map escape
    skills := e.skills.map escape
    holds := escape e.holds
    tags := e.tags.map escape
    requirements := e.requirements.map escape
    cost := e.cost.map escape
    speed := escape e.speed
    target := escape e.target
    toHit := escape e.toHit
    attacks := e.attacks.map escape
    effect := escape e.effect
    flavorText := escape e.flavorText
    fullText := escape e.fullText
    encumbrance := escape e.encumbrance }

end Tabletop.Escape
