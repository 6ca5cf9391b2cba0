import Tabletop.Compendium.Query
import Tabletop.Session

/-!
# Workbenches

A workbench keeps a session open on one content text, for a page that shows it. The page may change
the format, for which the session is opened again, or the seed.
-/

namespace Tabletop

structure Workbench where
  session : Session
  content : String

namespace Workbench

def openSession (content : String) (seed : UInt64) (format : Format) (order : Ron.Order := .byKey) :
    Except Session.Error Session :=
  match Compendium.ofText content order with
  | .ok compendium => Session.start (fun _ => none) { compendium, seed, format }
  | .error e => .error (.content e)

def start (content : String) (seed : UInt64) (order : Ron.Order := .byKey) : Except Session.Error Workbench := do
  return ⟨← openSession content seed .markdown order, content⟩

def evaluate (w : Workbench) (mode : Expansion.Mode) (text : String) : Session.Answer String × Workbench :=
  let (result, session) := w.session.evaluate mode text
  (result, { w with session })

/-- The whole expansion of one placeholder. -/
def expandTree (w : Workbench) (rolls : Bool) (text : String) : Session.Answer Expansion × Workbench :=
  let (result, session) := w.session.expand ⟨true, rolls⟩ text
  (result, { w with session })

/-- What a page lists of an entity. -/
structure Listing where
  name : String
  cleanName : String
  tags : List String
  hasTable : Bool
deriving Repr, DecidableEq

/-- All entities, by name. -/
def listings (w : Workbench) : List Listing :=
  (Compendium.byName w.session.compendium.entities).map fun e => ⟨e.name, e.cleanName, e.tags, e.hasTable⟩

def listValues (w : Workbench) : List (String × List String) := w.session.compendium.listValues

/-- Opens the session again with the same content and seed in another format. The content is read again, in an order
of its own. -/
def setFormat (w : Workbench) (format : Format) (order : Ron.Order := .byKey) : Except Session.Error Workbench := do
  return { w with session := ← openSession w.content w.session.seed format order }

/-- Starts over from a seed, in the same format. -/
def reset (w : Workbench) (seed : UInt64) : Workbench := { w with session := w.session.reseed seed }

end Workbench

end Tabletop
