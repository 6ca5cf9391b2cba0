/-!
# Ascending lists

Association lists in ascending key order, with one value for each key.
-/

namespace Tabletop.Ascending

variable {κ α : Type} [Ord κ]

/-- Puts a value under a key. An older value under the key is replaced. -/
def insert (key : κ) (value : α) : List (κ × α) → List (κ × α)
  | [] => [(key, value)]
  | (k, v) :: rest =>
    match compare key k with
    | .lt => (key, value) :: (k, v) :: rest
    | .eq => (key, value) :: rest
    | .gt => (k, v) :: insert key value rest

/-- The list of the given entries. Of two under one key the later stays. -/
def ofList (entries : List (κ × α)) : List (κ × α) :=
  entries.foldl (fun list (key, value) => insert key value list) []

end Tabletop.Ascending
