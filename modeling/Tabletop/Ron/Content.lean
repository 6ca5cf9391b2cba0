import Tabletop.Ascending
import Tabletop.Entity.Field
import Tabletop.Ron.Document
import Tabletop.Ron.Ignored

/-!
# Content

Tables and entities as RON. A content text is a map from source keys to entities. Fields may be left
out, unknown ones are passed over, and none may be given twice.
-/

namespace Tabletop.Ron

/--
The order in which the outcomes of each table are visited. It belongs to one reading, and nothing in the text settles
it. A table is told by how much text is left behind it.
-/
structure Order where
  visit : (left : Nat) → List (String × String) → List (String × String)
  perm : ∀ left outcomes, (visit left outcomes).Perm outcomes

/-- Outcomes are visited in the order of their written keys. -/
def Order.byKey : Order := ⟨fun _ outcomes => outcomes, fun _ outcomes => .refl outcomes⟩

namespace Reader

/-- Notes that a field has been read, and refuses it the second time. -/
def once (label : String) (seen : List String) : Reader (List String) :=
  if seen.contains label then refuse else return label :: seen

/-- What has been read of a table. -/
structure TableDraft where
  roll : Option String := none
  outcomes : Option (List (String × String)) := none
  seen : List String := []

def tableField (settings : Settings) (depth : Nat) (label : String) (draft : TableDraft) :
    Reader TableDraft := do
  if label = "roll" then
    let seen ← once label draft.seen
    return { draft with seen, roll := ← optional settings string }
  else if label = "outcomes" then
    let seen ← once label draft.seen
    return { draft with seen, outcomes := some (← items "\x7b" "\x7d" (pair string string)) }
  else
    ignore settings depth
    return draft

/-- The table of a draft. Of two outcomes under one key the later stays, and all that stay are visited in some order. -/
def TableDraft.build (draft : TableDraft) (visit : List (String × String) → List (String × String)) :
    Except Fault Table :=
  match draft.outcomes with
  | none => .error .malformed
  | some outcomes =>
    match Table.ofPairs draft.roll (visit (Ascending.ofList outcomes)) with
    | .ok t => .ok t
    | .error (.invalidKey key) => .error (.invalidKey key)
    | .error _ => .error .malformed

/-- A table, where `depth` more levels may be opened. -/
def table (settings : Settings) (order : Order) (depth : Nat) : Reader Table := do
  let draft ← struct "RawTable" (tableField settings (depth - 1)) {}
  fun cs => (draft.build (order.visit cs.length)).map (·, cs)

/-- What has been read of an entity. -/
structure EntityDraft where
  entity : Entity := {}
  seen : List String := []

def entityField (settings : Settings) (order : Order) (depth : Nat) (label : String) (draft : EntityDraft) :
    Reader EntityDraft := do
  match TextField.ofLabel? label, ListField.ofLabel? label with
  | some field, _ =>
    let seen ← once label draft.seen
    return ⟨field.set (← string) draft.entity, seen⟩
  | none, some field =>
    let seen ← once label draft.seen
    return ⟨field.set (← items "[" "]" string) draft.entity, seen⟩
  | none, none =>
    if label = "table" then
      let seen ← once label draft.seen
      let t ← optional settings (table settings order (depth - 2))
      return ⟨{ draft.entity with table := t }, seen⟩
    else
      ignore settings depth
      return draft

def entity (settings : Settings) (order : Order) (depth : Nat) : Reader Entity := do
  return (← struct "Entity" (entityField settings order (depth - 1)) {}).entity

/-- The entries of a content map, in the order they are written. -/
def entries (settings : Settings) (order : Order) (depth : Nat) : Reader (List (String × Entity)) :=
  items "\x7b" "\x7d" (pair string (entity settings order (depth - 2)))

end Reader

/-- Reads a table on its own. An optional value needs its `Some`. -/
def readTable (text : String) (order : Order := .byKey) : Except Fault Table :=
  read ⟨false⟩ (fun settings => Reader.table settings order nesting) text

/-- Reads the entries of a content text. -/
def readContent (text : String) (order : Order := .byKey) : Except Fault (List (String × Entity)) :=
  read ⟨true⟩ (fun settings => Reader.entries settings order nesting) text

/-! ## Writing -/

/-- A text in quotes, with quotes and backslashes escaped. -/
def quoted (text : String) : String :=
  "\"" ++ String.ofList (text.toList.flatMap fun c => if c = '"' || c = '\\' then ['\\', c] else [c]) ++ "\""

/-- A table, with its outcomes under their keys. -/
def writeTable (t : Table) : String :=
  let roll :=
    match t.roll with
    | some roll => "Some(" ++ quoted roll ++ ")"
    | none => "None"
  let outcomes := t.toPairs.map fun (key, outcome) => quoted key ++ ":" ++ quoted outcome
  "(roll:" ++ roll ++ ",outcomes:\x7b" ++ ",".intercalate outcomes ++ "\x7d)"

end Tabletop.Ron
