import Tabletop.Text.Digit

/-!
# Whole numbers

Reading whole numbers written in ASCII digits, and refusing those that are too large to keep.
-/

namespace Tabletop.Text

/-- The number that a non-empty run of ASCII digits writes. -/
def digits? (cs : List Char) : Option Nat :=
  if !cs.isEmpty && cs.all isAsciiDigit then
    some (cs.foldl (fun n c => 10 * n + (c.toNat - '0'.toNat)) 0)
  else none

/-- A number without a minus sign. One plus sign may lead it. -/
def unsigned? : List Char → Option Nat
  | '+' :: cs => digits? cs
  | cs => digits? cs

/-- A number that one plus or minus sign may lead. -/
def signed? : List Char → Option Int
  | '-' :: cs => (digits? cs).map fun n => -n
  | cs => (unsigned? cs).map fun n => n

/-- A count: a number of 32 bits. -/
def count? (cs : List Char) : Option Nat := (unsigned? cs).filter (· < 0x100000000)

/-- A seed: a number of 64 bits. -/
def seed? (cs : List Char) : Option UInt64 :=
  ((unsigned? cs).filter (· < 0x10000000000000000)).map UInt64.ofNat

/-- A whole number of 64 bits, sign included. -/
def integer? (cs : List Char) : Option Int :=
  (signed? cs).filter fun n => -0x8000000000000000 ≤ n && n < 0x8000000000000000

end Tabletop.Text
