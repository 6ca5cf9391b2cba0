import Tabletop.Table.Key
import Tabletop.Dice.Basic

/-!
# Tables

Outcomes as they are written, under keys, and the coverage that is worked out from them: every
single roll that has an outcome, ascending.
-/

namespace Tabletop

structure Table where
  /-- The dice to roll on the table. -/
  roll : Option String
  outcomes : List (Table.Key × String)
  coverage : List (Int × String)
deriving Repr, DecidableEq

namespace Table

inductive Error where
  | empty
  | invalidKey (key : String)
  | dice (error : Dice.Error)
deriving Repr, DecidableEq

def Error.message : Error → String
  | empty => "table has no outcomes"
  | invalidKey key => s!"invalid outcome key '{key}': expected an integer or an 'A-B' range"
  | dice error => s!"table roll failed: {error.message}"

/-! ## Coverage -/

/-- Gives all rolls of a key one outcome, whatever they had before. -/
def cover (key : Key) (outcome : String) (coverage : List (Int × String)) : List (Int × String) :=
  if key.last < key.first then coverage
  else
    coverage.filter (fun (roll, _) => roll < key.first) ++ key.rolls.map (·, outcome) ++
      coverage.filter (fun (roll, _) => key.last < roll)

/-- The coverage of some outcomes. Where keys overlap, the later outcome stands. -/
def coverageOf (outcomes : List (Key × String)) : List (Int × String) :=
  outcomes.foldl (fun coverage (key, outcome) => cover key outcome coverage) []

def lowest? (t : Table) : Option Int := t.coverage.head?.map Prod.fst

def highest? (t : Table) : Option Int := t.coverage.getLast?.map Prod.fst

/-- The rolls between covered ones that have no outcome of their own. -/
def gapsIn : List (Int × String) → List Int
  | (low, _) :: (high, outcome) :: rest =>
    (Key.mk (low + 1) (high - 1)).rolls ++ gapsIn ((high, outcome) :: rest)
  | _ => []

def gaps (t : Table) : List Int := gapsIn t.coverage

/-! ## Building -/

/-- The roll of a table that names none: one die up to the highest roll, if that is positive. -/
def defaultRoll? (t : Table) : Option String :=
  (t.highest?.filter (1 ≤ ·)).map fun highest => "1d" ++ toString highest

/-- Works out the coverage, and the roll if the table has none. -/
def expand (t : Table) : Table :=
  let covered := { t with coverage := coverageOf t.outcomes }
  { covered with roll := t.roll.orElse fun _ => covered.defaultRoll? }

/-- The table of some outcomes, in the order of their keys. -/
def ofOutcomes (roll : Option String) (outcomes : List (Key × String)) : Table :=
  expand ⟨roll, outcomes.mergeSort fun a b => a.1.le b.1, []⟩

/-- Reads the keys of some outcomes. The first that is not a key is the error. -/
def readOutcomes : List (String × String) → Except Error (List (Key × String))
  | [] => .ok []
  | (key, outcome) :: rest => do
    match Key.parse? key with
    | some k => return (k, outcome) :: (← readOutcomes rest)
    | none => .error (.invalidKey key)

/-- The table of outcomes under written keys. -/
def ofPairs (roll : Option String) (pairs : List (String × String)) : Except Error Table := do
  return ofOutcomes roll (← readOutcomes pairs)

/-- The outcomes under keys as `Key.text` writes them. -/
def toPairs (t : Table) : List (String × String) := t.outcomes.map fun (key, outcome) => (key.text, outcome)

end Table

end Tabletop
