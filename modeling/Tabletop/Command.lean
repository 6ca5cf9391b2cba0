/-!
# Commands

What a command leaves behind when it ends.
-/

namespace Tabletop.Command

structure Outcome where
  output : String := ""
  errorOutput : String := ""
  code : Nat := 0
deriving Repr, DecidableEq

end Tabletop.Command
