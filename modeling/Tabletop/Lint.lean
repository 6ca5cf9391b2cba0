import Tabletop.Command
import Tabletop.Compendium.Loading
import Tabletop.Compendium.Query
import Tabletop.Placeholder.Reading
import Tabletop.Random.Keystream
import Tabletop.Render.Standard

/-!
# Checking content

The checker reads all of a compendium and reports what would fail or surprise when it is expanded.
Rolls matter only for their errors here, so any seed will do.
-/

namespace Tabletop.Lint

open Tabletop.Random

structure Report where
  errors : List String := []
  warnings : List String := []
deriving Repr, DecidableEq

def Report.append (a b : Report) : Report := ⟨a.errors ++ b.errors, a.warnings ++ b.warnings⟩

instance : Append Report := ⟨Report.append⟩

/-! ## Checks -/

/-- Names that several entities share. None of them can be found. -/
def checkNames (c : Compendium) : Report :=
  { errors := c.ambiguousNames.map fun (name, count) => s!"{count} entities share the name '{name}'" }

/-- Whole numbers in brackets. -/
def listed (numbers : List Int) : String := "[" ++ ", ".intercalate (numbers.map toString) ++ "]"

/-- A table should have outcomes, a roll that can be read, and no gaps. -/
def checkTable (e : Entity) (t : Table) : Report :=
  let empty := if t.coverage.isEmpty then [s!"'{e.name}': table has no outcomes"] else []
  let roll :=
    match t.roll.map Dice.parse with
    | some (.error error) => [s!"'{e.name}': table roll: {error.message}"]
    | _ => []
  let gaps := if t.gaps.isEmpty then [] else [s!"'{e.name}': table has no outcome for rolls {listed t.gaps}"]
  ⟨empty ++ roll, gaps⟩

/-- A placeholder should refer to an entity that can be found, and not to the one it stands in. -/
def checkPlaceholder (c : Compendium) (e : Entity) (p : Placeholder) : Report :=
  if p.isBareRoll then {}
  else if p.entity = e.cleanName then
    { warnings := [s!"'{e.name}': references itself with {p.token}, expansion will stop at the node cap"] }
  else
    match c.find p.entity with
    | .ok _ => {}
    | .error error => { errors := [s!"'{e.name}': {p.token} ({error.message})"] }

/-- The text in which an entity's placeholders are checked: all of it, as plain Markdown. -/
def checkedText (e : Entity) : String := Renderer.standard.entity { includeFullText := true } e

/-- Checks the placeholders in the text of an entity. -/
def checkText (c : Compendium) (e : Entity) : Draw Report := do
  match ← (Placeholder.parse (checkedText e)).run with
  | .ok found => return (found.map (checkPlaceholder c e)).foldl (· ++ ·) {}
  | .error error => return { errors := [s!"'{e.name}': {error.message}"] }

def checkEntity (c : Compendium) (e : Entity) : Draw Report := do
  if (Text.trim e.name.toList).isEmpty then
    return { errors := ["entity with an empty name"] }
  else
    return (e.table.map (checkTable e)).getD {} ++ (← checkText c e)

/-- Checks one entity after another, all with one source. -/
def checkEntities (c : Compendium) : List Entity → Draw Report
  | [] => return {}
  | e :: rest => do return (← checkEntity c e) ++ (← checkEntities c rest)

/-- The report on a compendium. -/
def check (c : Compendium) : Draw Report := do return checkNames c ++ (← checkEntities c c.entities)

/-! ## The command -/

def Report.text (r : Report) : String :=
  "\n=== Content Lint Report ===\n\n" ++
    (if r.errors.isEmpty && r.warnings.isEmpty then "All checks passed!\n" else "") ++
    String.join (r.warnings.map fun warning => s!"WARNING: {warning}\n") ++
    String.join (r.errors.map fun error => s!"ERROR: {error}\n") ++
    s!"\nSummary: {r.errors.length} errors, {r.warnings.length} warnings\n"

/-- Reports on a compendium. Errors make the command fail. -/
def reported (c : Compendium) : Option Command.Outcome :=
  ((check c).run (.seeded 0)).map fun (report, _) =>
    { output := s!"Loaded {c.size} entities\n" ++ report.text, code := if report.errors.isEmpty then 0 else 1 }

def failed (message : String) : Command.Outcome := { errorOutput := "ERROR: " ++ message ++ "\n", code := 1 }

/-- The content at a path: a file or a folder of files. -/
def load? (files : Folder.Files) (path : String) : Option (Except Compendium.LoadError Compendium) :=
  match files path with
  | some (.file text) => some (Compendium.extendFile {} text)
  | some (.folder inside) => some (Compendium.ofFolder inside)
  | none => none

/-- Runs the command on its arguments. Only the first one counts. -/
def run (files : Folder.Files) : List String → Option Command.Outcome
  | [] => some { output := "Usage: content_linter <content_dir>\n" }
  | path :: _ =>
    if path = "--help" || path = "-h" then some { output := "Usage: content_linter <content_dir>\n" }
    else
      match load? files path with
      | none => some (failed s!"Path '{path}' does not exist")
      | some (.error error) => some (failed s!"Failed to load content: {error.message}")
      | some (.ok c) => reported c

end Tabletop.Lint
