import Tabletop.Compendium.Loading
import Tabletop.Expansion.Evaluate
import Tabletop.Random.Keystream
import Tabletop.Render.Standard

/-!
# Sessions

A session answers one call after another about a fixed compendium. Each call rolls from a source of
its own, seeded with the session's seed plus the number of calls before it, so that a session can be
replayed from its seed.
-/

namespace Tabletop

structure Session where
  compendium : Compendium
  options : RenderOptions
  seed : UInt64
  /-- Calls since the seed was set. -/
  calls : Nat := 0

namespace Session

inductive Error where
  | content (error : Compendium.LoadError)
  | expansion (error : Expansion.Error)
deriving Repr, DecidableEq

def Error.message : Error → String
  | content error => s!"content error: {error.message}"
  | expansion error => s!"expansion error: {error.message}"

/-! ## Opening -/

/-- What a session is opened with. -/
structure Setup where
  compendium : Compendium := {}
  /-- Paths of folders with more content. Those that do not exist are passed over. -/
  contentPaths : List String := []
  seed : UInt64 := 0
  format : Format := .markdown
  escaped : Bool := false

/-- Adds the content below a path. -/
def addContent (files : Folder.Files) (orders : String → Compendium.Orders) (c : Compendium) (path : String) :
    Except Compendium.LoadError Compendium :=
  if (files path).isNone then .ok c
  else do c.insertEach (← Compendium.ofFolderAt files path (orders path)).entries

/-- The session of a setup, with content read from `files`. -/
def start (files : Folder.Files) (setup : Setup) (orders : String → Compendium.Orders := fun _ _ => .byKey) :
    Except Error Session :=
  match setup.contentPaths.foldlM (addContent files orders) setup.compendium with
  | .ok compendium =>
    .ok { compendium, options := { format := setup.format, escaped := setup.escaped }, seed := setup.seed }
  | .error e => .error (.content e)

/-! ## Calls -/

/-- Starts over from a seed. -/
def reseed (s : Session) (seed : UInt64) : Session := { s with seed, calls := 0 }

def expander (s : Session) : Expander := ⟨s.compendium.find, .standard, s.options⟩

/-- The source of the next call. -/
def source (s : Session) : Random.Source := .seeded (s.seed + UInt64.ofNat s.calls)

/-- The session after one more call, failed or not. -/
def counted (s : Session) : Session := { s with calls := s.calls + 1 }

/-- The result of a call. There is none if its source runs out of words. -/
abbrev Answer (α : Type) := Option (Except Error α)

def answer {α : Type} (s : Session) (call : Random.Roll Expansion.Error α) : Answer α :=
  (call.run s.source).map fun (result, _) => result.mapError .expansion

/-- The text of one placeholder. -/
def evaluate (s : Session) (mode : Expansion.Mode) (text : String) : Answer String × Session :=
  (s.answer (s.expander.evaluate mode text), s.counted)

/-- The expansion of one placeholder. -/
def expand (s : Session) (mode : Expansion.Mode) (text : String) : Answer Expansion × Session :=
  (s.answer (s.expander.expandText mode text), s.counted)

end Session

end Tabletop
