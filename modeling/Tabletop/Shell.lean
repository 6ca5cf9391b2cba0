import Tabletop.Command
import Tabletop.Expansion.Outline
import Tabletop.Session

/-!
# The shell

An interactive session: each line is a command, or a placeholder to roll and expand.
-/

namespace Tabletop.Shell

/-! ## Arguments -/

/-- What the arguments ask for, or the one that cannot be used. -/
inductive ArgumentError where
  | invalidSeed (text : String)
  | unknown (argument : String)
deriving Repr, DecidableEq

def readArguments (setup : Session.Setup) : List String → Except ArgumentError Session.Setup
  | [] => .ok setup
  | "--content" :: path :: rest =>
    readArguments { setup with contentPaths := setup.contentPaths ++ [path] } rest
  | "--seed" :: text :: rest =>
    match Text.seed? text.toList with
    | some seed => readArguments { setup with seed } rest
    | none => .error (.invalidSeed text)
  | "--typeset" :: rest => readArguments { setup with format := .typeset } rest
  | "--escape" :: rest => readArguments { setup with escaped := true } rest
  | other :: _ => .error (.unknown other)

def usage : String :=
  "Usage: roll --content <dir> [--seed <n>] [--typeset] [--escape]\n\n" ++
    "Interactive shell for rolling placeholders against a content directory.\n" ++
    "--content may be given more than once.\n"

/-! ## Lines -/

def help : String :=
  "Commands:\n" ++
    "  roll <token>    Roll a placeholder, e.g. 'roll 2d6' or 'roll \x7b1d4 goblin\x7d'\n" ++
    "  expand <token>  Roll and expand every nested entity\n" ++
    "  show <token>    Show an entity and its references without rolling\n" ++
    "  tree <token>    Print the structure of an expansion\n" ++
    "  seed <n>        Set the RNG seed\n" ++
    "  help            Show this help\n" ++
    "  quit            Exit\n\n" ++
    "Anything else is treated as a token and expanded.\n"

/-- The reply to a line. -/
structure Reply where
  output : String
  session : Session
  quits : Bool := false

/-- The first word of a line in small letters, and what follows it. -/
def words (line : List Char) : String × String :=
  let isWord := fun c => !Text.isBlank c
  (String.ofList ((line.takeWhile isWord).map Char.toLower),
    String.ofList (Text.trim (line.dropWhile isWord)))

/-- The outline of an expansion, and its size. -/
def outlineText (e : Expansion) : String :=
  "\n" ++ String.join (e.tree.outline.map fun (level, node) => Tree.outlineLine level node ++ "\n") ++
    s!"\n{e.tree.size} nodes, {e.nonUnique.size} non-unique entities (* = unique)\n\n"

/-- Shows the result of a call, if there is one. -/
def shown {α : Type} (display : α → String) (complain : Session.Error → String)
    (call : Session.Answer α × Session) : Option Reply :=
  match call with
  | (some (.ok a), session) => some ⟨display a, session, false⟩
  | (some (.error e), session) => some ⟨complain e, session, false⟩
  | (none, _) => none

def spaced (text : String) : String := "\n" ++ text ++ "\n\n"

def complaint (e : Session.Error) : String := s!"ERROR: {e.message}\n"

/-- Evaluates a placeholder on behalf of a command. -/
def evaluate (s : Session) (command : String) (mode : Expansion.Mode) (text : String) : Option Reply :=
  if text.isEmpty then some ⟨s!"Usage: {command} <token>\n", s, false⟩
  else shown spaced complaint (s.evaluate mode text)

/-- The reply to a line that is not blank. -/
def replyTo (s : Session) (line : List Char) : Option Reply :=
  let (command, rest) := words line
  match command with
  | "quit" | "exit" | "q" => some ⟨"Goodbye.\n", s, true⟩
  | "help" | "h" | "?" => some ⟨help, s, false⟩
  | "roll" => evaluate s command ⟨false, true⟩ rest
  | "expand" => evaluate s command ⟨true, true⟩ rest
  | "show" => evaluate s command ⟨true, false⟩ rest
  | "tree" =>
    if rest.isEmpty then some ⟨"Usage: tree <token>\n", s, false⟩
    else shown outlineText complaint (s.expand ⟨true, true⟩ rest)
  | "seed" =>
    match Text.seed? rest.toList with
    | some seed => some ⟨s!"Seed set to {seed}\n", s.reseed seed, false⟩
    | none => some ⟨"Usage: seed <n>\n", s, false⟩
  | _ =>
    let text := String.ofList line
    shown spaced (fun e => s!"Unknown command or token: {text} ({e.message})\n") (s.evaluate ⟨true, true⟩ text)

/-- The reply to any line. A blank one changes nothing. -/
def reply (s : Session) (line : String) : Option Reply :=
  let trimmed := Text.trim line.toList
  if trimmed.isEmpty then some ⟨"", s, false⟩ else replyTo s trimmed

/-! ## The command -/

/-- What is printed before each line is read. -/
def prompt : String := "roll> "

/-- What is printed when a session starts. -/
def greeting (s : Session) : String :=
  s!"Loaded {s.compendium.size} entities\nSeed: {s.seed}\nType 'help' for commands.\n\n"

/-- The session that the arguments ask for, or what is left behind without one. -/
def start (files : Folder.Files) : List String → Except Command.Outcome Session
  | [] => .error { output := usage }
  | first :: rest =>
    if first = "--help" || first = "-h" then .error { output := usage }
    else
      match readArguments { seed := 42 } (first :: rest) with
      | .error (.invalidSeed text) => .error { errorOutput := s!"Invalid seed: {text}\n", code := 1 }
      | .error (.unknown argument) =>
        .error { output := usage, errorOutput := s!"Unknown argument: {argument}\n", code := 1 }
      | .ok setup =>
        match Session.start files setup with
        | .error e => .error { errorOutput := s!"ERROR: {e.message}\n", code := 1 }
        | .ok s => .ok s

/-- All that is printed while lines are read. -/
def transcript (s : Session) : List String → Option String
  | [] => some prompt
  | line :: rest => do
    let r ← reply s line
    if r.quits then return prompt ++ r.output
    else return prompt ++ r.output ++ (← transcript r.session rest)

/-- The lines of an input. The last one may lack its end. -/
def lines (input : String) : List String :=
  let parts := input.splitOn "\n"
  if parts.getLast? = some "" then parts.dropLast else parts

/-- Runs the command on its arguments and its whole input. -/
def run (files : Folder.Files) (arguments : List String) (input : String) : Option Command.Outcome :=
  match start files arguments with
  | .error outcome => some outcome
  | .ok s => (transcript s (lines input)).map fun text => { output := greeting s ++ text }

end Tabletop.Shell
