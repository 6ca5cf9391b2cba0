import Tabletop.Render.Escape
import Tabletop.Render.Markdown
import Tabletop.Render.Typeset

/-!
# The standard renderer

Escapes an entity as its format asks and lays it out.
-/

namespace Tabletop

/-- How text is escaped before it goes into a format. -/
def RenderOptions.escape (options : RenderOptions) : String → String :=
  match options.format with
  | .markdown => if options.escaped then Escape.markdown else id
  | .typeset => Escape.typeset

namespace Renderer

def standardEntity (options : RenderOptions) (e : Entity) : String :=
  let shown := Escape.fields options.escape e
  match options.format with
  | .markdown => Markdown.entity options shown
  | .typeset => Typeset.entity options shown

def standardOutcome (options : RenderOptions) (outcome : String) : String :=
  let shown := options.escape outcome
  match options.format with
  | .markdown => Markdown.outcome shown
  | .typeset => Typeset.outcome shown

def standard : Renderer := ⟨standardEntity, standardOutcome⟩

end Renderer

end Tabletop
