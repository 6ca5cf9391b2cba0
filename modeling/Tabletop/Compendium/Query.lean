import Tabletop.Ascending
import Tabletop.Compendium.Basic
import Tabletop.Entity.Field
import Tabletop.Render.Options

/-!
# Queries

Questions about a whole compendium.
-/

namespace Tabletop

inductive Filter where
  /-- A field of one text is equal to a text. -/
  | equals (field value : String)
  /-- A list field holds all of some texts. -/
  | containsAll (field : String) (values : List String)
deriving Repr, DecidableEq

def Filter.accepts (e : Entity) : Filter → Bool
  | equals field value => (TextField.ofLabel? field).any fun f => f.get e = value
  | containsAll field values =>
    (ListField.ofLabel? field).any fun f => values.all fun value => (f.get e).contains value

namespace Compendium

/-- The names that two or more entities share, each with their number. -/
def ambiguousNames (c : Compendium) : List (String × Nat) :=
  let counts := c.entities.map fun e => (e.cleanName, (c.named e.cleanName).length)
  (Ascending.ofList counts).filter fun (_, count) => 1 < count

/-- The values seen in a list field, ascending, each once. -/
def valuesOf (c : Compendium) (field : ListField) : List String :=
  (Ascending.ofList ((c.entities.flatMap field.get).map (·, ()))).map Prod.fst

/-- The list fields that have values, by their names, each with its values. -/
def listValues (c : Compendium) : List (String × List String) :=
  (Ascending.ofList (ListField.all.map fun field => (field.label, c.valuesOf field))).filter
    fun (_, values) => !values.isEmpty

/-- The entities that pass all filters. -/
def filter (c : Compendium) (filters : List Filter) : List Entity :=
  c.entities.filter fun e => filters.all (Filter.accepts e)

/-- Entities in the order of their names. Those of one name stay in the order they were added. -/
def byName (entities : List Entity) : List Entity := entities.mergeSort fun a b => a.name ≤ b.name

/-- All entities rendered one after another. Deprecated ones are left out unless asked for. -/
def renderSection (c : Compendium) (renderer : Renderer) (options : RenderOptions)
    (includeDeprecated : Bool) : String :=
  let shown := c.entities.filter fun e => includeDeprecated || !e.hasMetaTag "deprecated"
  String.join ((byName shown).map fun e => renderer.entity options e ++ "\n")

end Compendium

end Tabletop
