import Tabletop.Compendium.Basic
import Tabletop.Entity.Field
import Tabletop.Placeholder.Reading
import Tabletop.Placeholder.Substitution
import Tabletop.Render.Options
import Tabletop.Table.Resolve

/-!
# Resolving a placeholder

A placeholder is resolved by looking up its entity, rolling the entity's table, and reading the
placeholders in its text. They are always read from plain Markdown. The output format only shapes
the text that is shown.
-/

namespace Tabletop

open Tabletop.Random

namespace Expansion

inductive Error where
  /-- A text should have held one placeholder. -/
  | notSingle (found : Nat)
  | dice (error : Dice.Error)
  | table (error : Table.Error)
  | lookup (error : Compendium.LookupError)
deriving Repr, DecidableEq

def Error.message : Error → String
  | notSingle found => s!"expected exactly one placeholder, found {found}"
  | dice error => s!"dice error: {error.message}"
  | table error => s!"table error: {error.message}"
  | lookup error => s!"lookup error: {error.message}"

end Expansion

/-- What an expansion draws on. -/
structure Expander where
  lookup : String → Except Compendium.LookupError Entity
  renderer : Renderer
  /-- How the text of nodes is rendered. Tables are shown or not as each node needs it. -/
  options : RenderOptions

/-- How far an expansion goes. -/
structure Expansion.Mode where
  /-- Resolve the placeholders in the texts as well. -/
  expands : Bool
  /-- Roll tables and write rolled quantities into the texts. -/
  rolls : Bool
deriving Repr, DecidableEq

/-- An entity that was looked up for a node. -/
structure Resolved where
  entity : Entity
  /-- The outcome of its table, if that was rolled. -/
  outcome : Option String
  nested : List Placeholder

/-- Another node of the same entity could come out differently. -/
def Resolved.isRandom (r : Resolved) : Bool :=
  r.outcome.isSome || r.nested.any fun p => !p.quantityDice.isEmpty

namespace Expander

/-- How a text is rendered that placeholders are read from. -/
def readingOptions (x : Expander) (skipTable : Bool) : RenderOptions :=
  { x.options with format := .markdown, escaped := false, skipTable }

/-- An entity as text, with the outcome of its table below it. -/
def renderWith (x : Expander) (options : RenderOptions) (e : Entity) (outcome : Option String) : String :=
  x.renderer.entity options e ++ (outcome.map (x.renderer.outcome options)).getD ""

def find (x : Expander) (name : String) : Roll Expansion.Error Entity :=
  ExceptT.mk (pure ((x.lookup name).mapError .lookup))

/-- The outcome of an entity's table, if it has one and tables are rolled. -/
def rollTable (e : Entity) (given : Option Int) (rolls : Bool) : Roll Expansion.Error (Option String) :=
  match e.table with
  | some t => if rolls then do return some (← (t.resolve given).adapt .table) else pure none
  | none => pure none

/-- The placeholders in a rendered text. -/
def read (text : String) : Roll Expansion.Error (List Placeholder) := (Placeholder.parse text).adapt .dice

def resolve (x : Expander) (p : Placeholder) (rolls : Bool) : Roll Expansion.Error Resolved := do
  let e ← x.find p.entity
  let outcome ← rollTable e p.result rolls
  let nested ← read (x.renderWith (x.readingOptions (rolls && e.hasTable)) e outcome)
  return ⟨e, outcome, nested⟩

/-- The entity with only what is shown of it, so that nothing else takes a substitution. -/
def shownPart (x : Expander) (e : Entity) (outcome : Option String) : Entity :=
  { e with
    fullText := if x.options.includeFullText then e.fullText else ""
    table := if outcome.isSome then none else e.table }

/-- The text of an entity in the output format, with rolls written over their tokens. -/
def displayText (x : Expander) (e : Entity) (outcome : Option String) (rolls : List Placeholder) : String :=
  let shown := x.shownPart e outcome
  let written := Placeholder.substituteIn (shown.texts ++ outcome.toList) rolls
  x.renderWith { x.options with skipTable := outcome.isSome } (shown.withTexts written)
    (outcome.map fun _ => written.getLastD "")

end Expander

end Tabletop
