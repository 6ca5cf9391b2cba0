import Tabletop.Ascending
import Tabletop.Compendium.Basic

/-!
# Indexes

Two indexes can be kept beside the entries of a compendium, so that it need not be searched from the front:
the place of each source key, and the places of the entities of each normalized name. Both grow with every
entry that is added. A catalogue keeps them and answers from them alone.
-/

namespace Tabletop

namespace Compendium

structure Index where
  places : List (String × Nat) := []
  namesakes : List (String × List Nat) := []
deriving Repr, DecidableEq

namespace Index

/-- The places of the entities of a normalized name, in the order in which they were added. -/
def placesOf (ix : Index) (name : String) : List Nat := (ix.namesakes.lookup name).getD []

/-- Notes the entry that was added at a place. -/
def record (ix : Index) (place : Nat) (key : String) (e : Entity) : Index :=
  ⟨Ascending.insert key place ix.places,
    Ascending.insert e.cleanName (ix.placesOf e.cleanName ++ [place]) ix.namesakes⟩

def ofEntries (entries : List (String × Entity)) : Index :=
  entries.zipIdx.foldl (fun ix ((key, e), place) => ix.record place key e) {}

/-- The entity under a source key. -/
def get? (ix : Index) (entities : List Entity) (key : String) : Option Entity :=
  (ix.places.lookup key).bind (entities[·]?)

/-- The one entity of a name. -/
def find (ix : Index) (entities : List Entity) (name : String) : Except LookupError Entity :=
  let name := Name.normalize name
  match ix.placesOf name with
  | [] => .error (.notFound name)
  | [place] => (entities[place]?).elim (.error (.notFound name)) .ok
  | places => .error (.ambiguous name places.length)

/-- The names that have two or more places, each with their number. -/
def ambiguousNames (ix : Index) : List (String × Nat) :=
  (ix.namesakes.map fun (name, places) => (name, places.length)).filter fun (_, count) => 1 < count

end Index

def index (c : Compendium) : Index := .ofEntries c.entries

end Compendium

open Compendium (Index DuplicateKey LookupError prepared)

/-- A compendium with indexes of its own. -/
structure Catalogue where
  entries : List (String × Entity) := []
  index : Index := {}
deriving Repr, DecidableEq

namespace Catalogue

def compendium (k : Catalogue) : Compendium := ⟨k.entries⟩

def entities (k : Catalogue) : List Entity := k.entries.map Prod.snd

/-- The index of the keys says whether a key is there already. -/
def insert (k : Catalogue) (key : String) (e : Entity) : Except DuplicateKey Catalogue :=
  if (k.index.places.lookup key).isSome then .error ⟨key⟩
  else .ok ⟨k.entries ++ [(key, prepared e)], k.index.record k.entries.length key (prepared e)⟩

/-- Adds entries until one has a key that is there already. What was added before it stays. -/
def insertAll (k : Catalogue) : List (String × Entity) → Catalogue × Option DuplicateKey
  | [] => (k, none)
  | (key, e) :: rest =>
    match k.insert key e with
    | .ok k => k.insertAll rest
    | .error duplicate => (k, some duplicate)

def merge (k other : Catalogue) : Catalogue × Option DuplicateKey := k.insertAll other.entries

def get? (k : Catalogue) (key : String) : Option Entity := k.index.get? k.entities key

def find (k : Catalogue) (name : String) : Except LookupError Entity := k.index.find k.entities name

def ambiguousNames (k : Catalogue) : List (String × Nat) := k.index.ambiguousNames

end Catalogue

end Tabletop
