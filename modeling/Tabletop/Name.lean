import Tabletop.Text.Blank
import Tabletop.Text.Digit

/-!
# Names

Entities are looked up by a normalized name, so that `Half-Orc` and `half orc` are one name.
-/

namespace Tabletop.Name

/-- Small letters, digits and the underscore. -/
def isKept (c : Char) : Bool := ('a' ≤ c && c ≤ 'z') || Text.isAsciiDigit c || c == '_'

/--
The small letter of `c`, where that is an ASCII letter. Outside ASCII only the Kelvin sign and the
dotted capital I have one; the dot that the latter leaves behind is not kept in a name.
-/
def lower (c : Char) : Char :=
  if c = '\u212A' then 'k' else if c = '\u0130' then 'i' else c.toLower

/-- Spaces and hyphens join the words of a name. -/
def joined (c : Char) : Char := if c = ' ' || c = '-' then '_' else c

/-- The normalized form of a display name. -/
def normalize (name : String) : String :=
  String.ofList (((Text.trim name.toList).map (joined ∘ lower)).filter isKept)

end Tabletop.Name
