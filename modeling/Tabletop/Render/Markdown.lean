import Tabletop.Render.Options

/-!
# Markdown

An entity as Markdown: one line for each field that has a text.
-/

namespace Tabletop.Markdown

/-- A field on its own line, between a start and an end. An empty field has no line. -/
def line (start text stop : String) : String :=
  if text.isEmpty then "" else start ++ text ++ stop ++ "  \n"

def plain (text : String) : String := line "" text ""

def labelled (label text : String) : String := line ("**" ++ label ++ ":** ") text ""

/-- The items of a list field, in one line. -/
def items (list : List String) : String := ", ".intercalate list

def row (key : Table.Key) (outcome : String) : String := "\n| " ++ key.text ++ " | " ++ outcome ++ " |  "

def table (t : Table) : String :=
  let advice :=
    match t.roll with
    | some roll => "Unless otherwise specified, roll " ++ roll ++ " on this table."
    | none => ""
  "  \n\n" ++ advice ++ "\n\n| Roll | Outcome |  \n| --- | --- |" ++
    String.join (t.outcomes.map fun (key, outcome) => row key outcome) ++ "\n"

/-- The table section of an entity. -/
def tableSection (e : Entity) (options : RenderOptions) : String :=
  match e.table with
  | some t => if options.skipTable then "" else plain (table t)
  | none => ""

/-- The long text, set apart by blank lines. -/
def fullText (e : Entity) (options : RenderOptions) : String :=
  if options.includeFullText then line "" e.fullText "  \n\n\n" else ""

def entity (options : RenderOptions) (e : Entity) : String :=
  String.join [
    line "#### " e.name "",
    labelled "HP" e.hp,
    labelled "Scores" (items e.scores),
    labelled "Skills" (items e.skills),
    labelled "Holds" e.holds,
    labelled "Tags" (items e.tags),
    labelled "Requirements" (items e.requirements),
    labelled "Cost" (items e.cost),
    labelled "Speed" e.speed,
    labelled "Target" e.target,
    labelled "To-Hit" e.toHit,
    plain (items e.attacks),
    plain e.effect,
    tableSection e options,
    line "*" e.flavorText "*",
    fullText e options,
    labelled "Encumbrance" e.encumbrance]

def outcome (text : String) : String := "Table Result:  \n" ++ text ++ "\n"

end Tabletop.Markdown
