import Tabletop.Entity.Basic

/-!
# Renderers

A renderer turns an entity into text in one of two formats.
-/

namespace Tabletop

inductive Format where
  | markdown
  | typeset
deriving Repr, DecidableEq

structure RenderOptions where
  format : Format := .markdown
  /-- Show the long text as well. Typeset text never has it. -/
  includeFullText : Bool := false
  skipTable : Bool := false
  /-- Escape what Markdown would read as emphasis. -/
  escaped : Bool := false
deriving Repr, DecidableEq

structure Renderer where
  entity : RenderOptions → Entity → String
  /-- The block under an entity whose table was rolled. -/
  outcome : RenderOptions → String → String

end Tabletop
