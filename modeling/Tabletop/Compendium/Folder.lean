/-!
# Folders

A tree of files, as content is kept in. A folder lists what is in it, in no particular order.
-/

namespace Tabletop

inductive Folder where
  | empty
  /-- A file, then the rest of the folder. The file has no text if it cannot be read. -/
  | file (name : String) (text : Option String) (rest : Folder)
  /-- A folder inside, then the rest of the folder. -/
  | folder (name : String) (inside rest : Folder)
deriving Repr

namespace Folder

/-- What a path leads to. -/
inductive Place where
  | file (text : Option String)
  | folder (inside : Folder)

/-- Files as a program sees them: what each path leads to, if anything. -/
abbrev Files := String → Option Place

/-- What has a name in a folder. -/
def entry? (wanted : String) : Folder → Option Place
  | .empty => none
  | .file name text rest => if name = wanted then some (.file text) else rest.entry? wanted
  | .folder name inside rest => if name = wanted then some (.folder inside) else rest.entry? wanted

/-- A folder without what has a name in it. -/
def erase (unwanted : String) : Folder → Folder
  | .empty => .empty
  | .file name text rest =>
    if name = unwanted then rest.erase unwanted else .file name text (rest.erase unwanted)
  | .folder name inside rest =>
    if name = unwanted then rest.erase unwanted else .folder name inside (rest.erase unwanted)

/-- The folder of a name inside a folder, empty if there is none. -/
def subfolder (f : Folder) (name : String) : Folder :=
  match f.entry? name with
  | some (.folder inside) => inside
  | _ => .empty

/-- Puts a file, or an empty folder, at the end of a path of names. -/
def put (content : Option String) : List String → Folder → Folder
  | [], f => f
  | [name], f =>
    match content with
    | some text => .file name (some text) (f.erase name)
    | none => .folder name (f.subfolder name) (f.erase name)
  | name :: path, f => .folder name (put content path (f.subfolder name)) (f.erase name)

/-- Follows the steps of a path. `passed` are the folders that were entered, the last one first. -/
def walk : (passed : List Folder) → (here : Folder) → List String → Option Place
  | _, here, [] => some (.folder here)
  | passed, here, step :: path =>
    if step = "" || step = "." then walk passed here path
    else if step = ".." then
      match passed with
      | [] => none
      | outer :: passed => walk passed outer path
    else
      match here.entry? step with
      | some (.folder inside) => walk (here :: passed) inside path
      | some (.file text) => if path.isEmpty then some (.file text) else none
      | none => none

/-- What a relative path leads to. -/
def find? (f : Folder) (path : String) : Option Place :=
  if path.isEmpty || path.startsWith "/" then none else walk [] f (path.splitOn "/")

end Folder

end Tabletop
