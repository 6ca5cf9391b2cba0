import Tabletop.Render.Options

/-!
# Typeset text

An entity as LaTeX: one paragraph for each field that has a text, under a large heading.
-/

namespace Tabletop.Typeset

/-- A text in the braces of a command. -/
def command (name text : String) : String := "\\" ++ name ++ "\x7b" ++ text ++ "\x7d"

/-- A field as a paragraph. An empty field has none. -/
def paragraph (text : String) : String := if text.isEmpty then "" else text ++ " \n \n"

def labelled (label text : String) : String :=
  if text.isEmpty then "" else command "emph" (label ++ ":") ++ " " ++ paragraph text

/-- A rule across the page, with a little space around it. -/
def rule : String := "\\smallskip  \\hrule \\smallskip "

def items (list : List String) : String := ", ".intercalate list

def skills (list : List String) : String :=
  if list.isEmpty then "" else labelled "Skills" (rule ++ "\n \\medskip\n".intercalate list)

def attacks (list : List String) : String :=
  if list.isEmpty then ""
  else
    paragraph (rule ++ command "emph" "Attacks: " ++ "\n" ++ command "begin" "itemize" ++ "\n" ++
      String.join (list.map fun attack => "    \\item " ++ attack ++ "\n") ++ "\n" ++
      command "end" "itemize")

def row (key : Table.Key) (outcome : String) : String :=
  "\n\\hline\n" ++ key.text ++ " & " ++ outcome ++ " \\\\"

def table (t : Table) : String :=
  let advice :=
    match t.roll with
    | some roll => "\n\nRoll " ++ roll ++ " on this table.\n\n"
    | none => ""
  advice ++ "\\smallskip" ++ command "begin" "center" ++ "\n" ++ command "begin" "tabularx" ++
    "\x7b\\textwidth\x7d\x7b | c | X | \x7d" ++
    String.join (t.outcomes.map fun (key, outcome) => row key outcome) ++
    "\n    \\hline\n" ++ command "end" "tabularx" ++ "\n" ++ command "end" "center"

def tableSection (e : Entity) (options : RenderOptions) : String :=
  match e.table with
  | some t => if options.skipTable then "" else paragraph (table t)
  | none => ""

def flavor (text : String) : String :=
  if text.isEmpty then "" else paragraph (rule ++ command "textit" text)

def encumbrance (text : String) : String :=
  if text.isEmpty then "" else "\\vfill\n\\hfill Enc: " ++ text ++ "\n"

def entity (options : RenderOptions) (e : Entity) : String :=
  String.join [
    paragraph (command "textbf" (command "large" e.name)),
    labelled "HP" e.hp,
    labelled "Scores" (items e.scores),
    skills e.skills,
    labelled "Holds" e.holds,
    labelled "Tags" (items e.tags),
    labelled "Requirements" (items e.requirements),
    labelled "Cost" (items e.cost),
    labelled "Speed" e.speed,
    labelled "Target" e.target,
    labelled "To-Hit" e.toHit,
    attacks e.attacks,
    paragraph e.effect,
    tableSection e options,
    flavor e.flavorText,
    encumbrance e.encumbrance]

def outcome (text : String) : String := labelled "Table Result" text

end Tabletop.Typeset
