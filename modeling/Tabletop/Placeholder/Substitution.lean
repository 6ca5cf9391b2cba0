import Tabletop.Placeholder.Basic
import Tabletop.Text.Search

/-!
# Substitution

Writing what was rolled in place of the tokens. Placeholders are taken in the order they were read,
and each one writes over the first token like its own that is still there, so a token written twice
is rolled twice.
-/

namespace Tabletop.Placeholder

/-- What stands in place of the token. A quantity of zero leaves nothing. -/
def replacement (p : Placeholder) : String := if p.quantity = 0 then "" else p.rolledText

/-- Writes over the first token in the first field that holds it. -/
def writeIn (p : Placeholder) : List (List Char) → List (List Char)
  | [] => []
  | field :: fields =>
    match Text.replaceFirst? p.token.toList p.replacement.toList field with
    | some written => written :: fields
    | none => field :: writeIn p fields

/-- Writes all placeholders into fields that are read one after another. -/
def substituteIn (fields : List String) (placeholders : List Placeholder) : List String :=
  (placeholders.foldl (fun fields p => p.writeIn fields) (fields.map String.toList)).map String.ofList

/-- Writes all placeholders into one text. -/
def substitute (text : String) (placeholders : List Placeholder) : String :=
  String.join (substituteIn [text] placeholders)

end Tabletop.Placeholder
