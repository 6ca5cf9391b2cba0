import Tabletop.Ascending
import Tabletop.Compendium.Basic
import Tabletop.Compendium.Folder
import Tabletop.Ron.Content

/-!
# Loading content

Content texts are read from files and folders, one after another. Within one text entities are added
in the order of their keys, and of two under one key the later stays. Across texts keys are distinct.
-/

namespace Tabletop.Compendium

inductive LoadError where
  /-- A file or folder is missing or cannot be read. -/
  | unreadable
  | content (fault : Ron.Fault)
  | duplicateKey (key : String)
deriving Repr, DecidableEq

def LoadError.message : LoadError → String
  | unreadable => "IO error: cannot be read"
  | content .malformed => "RON deserialization error: malformed content"
  | content (.invalidKey key) => s!"RON deserialization error: {(Table.Error.invalidKey key).message}"
  | duplicateKey key => s!"duplicate content key: {key}"

/-- All entries added, or the key that was there already. -/
def insertEach (c : Compendium) (entries : List (String × Entity)) : Except LoadError Compendium :=
  match c.insertAll entries with
  | (c, none) => .ok c
  | (_, some duplicate) => .error (.duplicateKey duplicate.key)

/-- Adds the entries of one text, given in the order in which they are written. -/
def addWritten (c : Compendium) (entries : List (String × Entity)) : Except LoadError Compendium :=
  c.insertEach (Ascending.ofList entries)

/-- Adds the entries of a content text. -/
def extend (c : Compendium) (text : String) (order : Ron.Order := .byKey) : Except LoadError Compendium :=
  match Ron.readContent text order with
  | .ok entries => c.addWritten entries
  | .error fault => .error (.content fault)

/-- The compendium of one content text. -/
def ofText (text : String) (order : Ron.Order := .byKey) : Except LoadError Compendium := extend {} text order

/-- Adds the entries of a file, if it can be read. -/
def extendFile (c : Compendium) (file : Option String) (order : Ron.Order := .byKey) :
    Except LoadError Compendium :=
  match file with
  | some text => c.extend text order
  | none => .error .unreadable

/-- Whether a file holds content, which the ending behind the last dot of its name says. -/
def isContentFile (name : String) : Bool :=
  let backwards := name.toList.reverse
  backwards.takeWhile (· ≠ '.') = "nor".toList &&
    !((backwards.dropWhile (· ≠ '.')).drop 1).isEmpty

/-- What goes on with a compendium at one entry of a folder. -/
abbrev Visit := Compendium → Except LoadError Compendium

/-- Visits the entries of a folder one after another, in the order of their names. -/
def inOrder (visits : List (String × Visit)) : Visit := fun c =>
  (visits.mergeSort fun a b => a.1 ≤ b.1).foldlM (fun c (_, visit) => visit c) c

/-- The order of the reading of each file, by the names that lead to it. -/
abbrev Orders := List String → Ron.Order

/-- The visit to each entry of a folder, by the name of the entry. Files that hold no content are passed over,
and folders are gone through where they stand. -/
def visits (orders : Orders) : Folder → List (String × Visit)
  | .empty => []
  | .file name text rest =>
    (name, fun c => if isContentFile name then c.extendFile text (orders [name]) else .ok c) :: visits orders rest
  | .folder name inside rest =>
    (name, inOrder (visits (fun path => orders (name :: path)) inside)) :: visits orders rest

/-- Adds the entries of all content files below a folder. -/
def extendFolder (c : Compendium) (f : Folder) (orders : Orders) : Except LoadError Compendium :=
  inOrder (visits orders f) c

/-- The compendium of all content files below a folder. -/
def ofFolder (f : Folder) (orders : Orders := fun _ => .byKey) : Except LoadError Compendium :=
  extendFolder {} f orders

/-- The compendium of the file at a path. -/
def ofFileAt (files : Folder.Files) (path : String) (order : Ron.Order := .byKey) : Except LoadError Compendium :=
  match files path with
  | some (.file text) => extendFile {} text order
  | _ => .error .unreadable

/-- The compendium of the folder at a path. -/
def ofFolderAt (files : Folder.Files) (path : String) (orders : Orders := fun _ => .byKey) :
    Except LoadError Compendium :=
  match files path with
  | some (.folder inside) => ofFolder inside orders
  | _ => .error .unreadable

end Tabletop.Compendium
