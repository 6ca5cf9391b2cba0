import Tabletop.Text.Blank
import Tabletop.Text.Integer

/-!
# Outcome keys

A key says which rolls give an outcome: one roll, or all rolls from the first to the last.
-/

namespace Tabletop.Table

structure Key where
  first : Int
  last : Int
deriving Repr, DecidableEq

namespace Key

/-- The text in front of the first hyphen, and the text behind it. -/
def aroundHyphen? : List Char → Option (List Char × List Char)
  | [] => none
  | '-' :: cs => some ([], cs)
  | c :: cs => (aroundHyphen? cs).map fun (before, after) => (c :: before, after)

/-- Reads `4`, `-4` or `1-3`. A hyphen at the very start is a sign. -/
def parse? (text : String) : Option Key :=
  let cs := Text.trim text.toList
  match aroundHyphen? cs with
  | some (c :: before, after) => do
    return ⟨← Text.integer? (Text.trim (c :: before)), ← Text.integer? (Text.trim after)⟩
  | _ => (Text.integer? cs).map fun n => ⟨n, n⟩

def text (k : Key) : String :=
  if k.first = k.last then toString k.first else toString k.first ++ "-" ++ toString k.last

/-- Keys are ordered by their first roll, then by their last. -/
def le (a b : Key) : Bool := a.first < b.first || (a.first = b.first && a.last ≤ b.last)

/-- The rolls of a key, ascending. There are none if the last comes before the first. -/
def rolls (k : Key) : List Int :=
  (List.range (k.last - k.first + 1).toNat).map fun (i : Nat) => k.first + (i : Int)

theorem mem_rolls {k : Key} {roll : Int} : roll ∈ k.rolls ↔ k.first ≤ roll ∧ roll ≤ k.last := by
  simp only [rolls, List.mem_map, List.mem_range]
  constructor
  · rintro ⟨i, hi, rfl⟩
    omega
  · rintro ⟨h1, h2⟩
    exact ⟨(roll - k.first).toNat, by omega, by omega⟩

end Key

end Tabletop.Table
