import Tabletop.Ascending
import Tabletop.Expansion.Tally

/-!
# Indexed tallies

The place of each name can be kept beside the entries of a tally, so that they need not be searched from the
front. Counts have 32 bits here, and a record that would carry one beyond them has no result.
-/

namespace Tabletop.Tally

structure Indexed where
  entries : List Entry := []
  /-- The place of each name in the entries. -/
  places : List (String × Nat) := []
deriving Repr, DecidableEq

namespace Indexed

/-- Counts up the entry at a place, if there is one and its count has room. -/
def countUp? (entries : List Entry) (place : Nat) : Option (List Entry) :=
  match entries[place]? with
  | some e => if e.count + 1 < 0x100000000 then some (entries.set place { e with count := e.count + 1 }) else none
  | none => none

/-- Counts a name up at its place, or gives it the next place with its text. -/
def record? (t : Indexed) (name text : String) : Option Indexed :=
  match t.places.lookup name with
  | some place => (countUp? t.entries place).map fun entries => { t with entries }
  | none => some ⟨t.entries ++ [⟨name, text, 1⟩], Ascending.insert name t.entries.length t.places⟩

def ofRecords? (records : List (String × String)) : Option Indexed :=
  records.foldlM (fun t (name, text) => t.record? name text) {}

def get? (t : Indexed) (name : String) : Option Entry := (t.places.lookup name).bind (t.entries[·]?)

def size (t : Indexed) : Nat := t.entries.length

end Indexed

end Tabletop.Tally
