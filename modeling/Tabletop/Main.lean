import Tabletop.Lint
import Tabletop.Shell

/-!
# The program

`roll` starts the interactive shell and `lint` checks content. This module only reads files and
lines, and prints.
-/

namespace Tabletop.Program

/-- Reads a folder from the disk. A file that is not text has none. -/
partial def readFolder (path : String) : IO Folder := do
  let mut folder := Folder.empty
  for entry in ← (System.mkFilePath [path]).readDir do
    let below := path ++ "/" ++ entry.fileName
    if ← (System.mkFilePath [below]).isDir then
      folder := .folder entry.fileName (← readFolder below) folder
    else
      folder := .file entry.fileName (← (IO.FS.readFile below).toBaseIO <&> (·.toOption)) folder
  return folder

/-- Reads what a path leads to on the disk. -/
def readPlace (path : String) : IO (Option Folder.Place) := do
  if ← (System.mkFilePath [path]).isDir then
    return some (.folder (← readFolder path))
  else if ← (System.mkFilePath [path]).pathExists then
    return some (.file (← (IO.FS.readFile path).toBaseIO <&> (·.toOption)))
  else
    return none

/-- The files that some arguments may name. -/
def readFiles (arguments : List String) : IO Folder.Files := do
  let mut found := []
  for path in arguments do
    if let some place ← readPlace path then
      found := (path, place) :: found
  return fun path => found.lookup path

def finish (outcome : Command.Outcome) : IO UInt32 := do
  IO.print outcome.output
  IO.eprint outcome.errorOutput
  return UInt32.ofNat outcome.code

/-- Reads a line and replies to it, until the input ends. -/
partial def converse (session : Session) : IO Unit := do
  IO.print Shell.prompt
  (← IO.getStdout).flush
  let line ← (← IO.getStdin).getLine
  unless line.isEmpty do
    if let some reply := Shell.reply session line then
      IO.print reply.output
      unless reply.quits do converse reply.session

def roll (arguments : List String) : IO UInt32 := do
  match Shell.start (← readFiles arguments) arguments with
  | .error outcome => finish outcome
  | .ok session =>
    IO.print (Shell.greeting session)
    converse session
    return 0

def lint (arguments : List String) : IO UInt32 := do
  match Lint.run (← readFiles arguments) arguments with
  | some outcome => finish outcome
  | none => return 1

end Tabletop.Program

def main : List String → IO UInt32
  | "roll" :: arguments => Tabletop.Program.roll arguments
  | "lint" :: arguments => Tabletop.Program.lint arguments
  | _ => do
    IO.println "Usage: tabletop roll|lint ..."
    return 1
