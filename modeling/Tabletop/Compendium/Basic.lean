import Tabletop.Entity.Basic

/-!
# Compendiums

A compendium holds entities under source keys, in the order in which they were added. Source keys
are distinct. Normalized names need not be, but an entity can only be found by a name that it alone
has.
-/

namespace Tabletop

structure Compendium where
  entries : List (String × Entity) := []
deriving Repr, DecidableEq

namespace Compendium

/-- A key that was to be added and is there already. -/
structure DuplicateKey where
  key : String
deriving Repr, DecidableEq

inductive LookupError where
  | notFound (name : String)
  | ambiguous (name : String) (matching : Nat)
deriving Repr, DecidableEq

def LookupError.message : LookupError → String
  | notFound name => s!"entity not found: {name}"
  | ambiguous name matching => s!"entity name '{name}' is ambiguous ({matching} matches)"

def size (c : Compendium) : Nat := c.entries.length

def isEmpty (c : Compendium) : Bool := c.entries.isEmpty

def entities (c : Compendium) : List Entity := c.entries.map Prod.snd

/-- The entity under a source key. -/
def get? (c : Compendium) (key : String) : Option Entity := c.entries.lookup key

/-! ## Adding -/

/-- An entity as it enters a compendium: with its normalized name, and with its table expanded. -/
def prepared (e : Entity) : Entity :=
  { e with cleanName := Name.normalize e.name, table := e.table.map Table.expand }

def insert (c : Compendium) (key : String) (e : Entity) : Except DuplicateKey Compendium :=
  if (c.get? key).isSome then .error ⟨key⟩ else .ok ⟨c.entries ++ [(key, prepared e)]⟩

/-- Adds entries until one has a key that is there already. What was added before it stays. -/
def insertAll (c : Compendium) : List (String × Entity) → Compendium × Option DuplicateKey
  | [] => (c, none)
  | (key, e) :: rest =>
    match c.insert key e with
    | .ok c => c.insertAll rest
    | .error duplicate => (c, some duplicate)

/-- Adds all entries of another compendium. -/
def merge (c other : Compendium) : Compendium × Option DuplicateKey := c.insertAll other.entries

/-! ## Finding -/

/-- The entities that share a normalized name. -/
def named (c : Compendium) (name : String) : List Entity := c.entities.filter (·.cleanName = name)

/-- The one entity of a name. -/
def find (c : Compendium) (name : String) : Except LookupError Entity :=
  let name := Name.normalize name
  match c.named name with
  | [] => .error (.notFound name)
  | [e] => .ok e
  | found => .error (.ambiguous name found.length)

end Compendium

end Tabletop
