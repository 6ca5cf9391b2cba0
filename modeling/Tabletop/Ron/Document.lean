import Tabletop.Ron.Reader

/-!
# Documents

A document is one value. Attributes in front of it may change how it is read.
-/

namespace Tabletop.Ron.Reader

/-- The settings under one named extension. Only one of the known ones changes anything here. -/
def extension (name : String) (settings : Settings) : Reader Settings :=
  if name = "implicit_some" then return { settings with implicitSome := true }
  else if name = "unwrap_newtypes" || name = "unwrap_variant_newtypes" then return settings
  else refuse

/-- Passes over some texts, and over blanks behind each. -/
def phrase : List String → Reader Unit
  | [] => pure ()
  | text :: rest => do
    expect text
    blanks
    phrase rest

/-- The extensions that an attribute names, one at least. A comma may trail. -/
def extensions : (tries : Nat) → Settings → Reader Settings
  | 0, _ => refuse
  | tries + 1, settings => do
    let settings ← extension (← identifier) settings
    let comma ← tryComma
    if ← nextIs isIdentifierChar then
      if comma then extensions tries settings else refuse
    else
      return settings

/-- The attributes in front of a value. -/
def attributes : (tries : Nat) → Settings → Reader Settings
  | 0, _ => refuse
  | tries + 1, settings => do
    if ← nextIs (· = '#') then
      phrase ["#", "!", "[", "enable", "("]
      let settings ← extensions ((← get).length + 1) settings
      phrase [")", "]"]
      attributes tries settings
    else
      return settings

end Tabletop.Ron.Reader

namespace Tabletop.Ron

/-- Reads a whole document, of which nothing may be left. -/
def read {α : Type} (settings : Settings) (value : Settings → Reader α) (text : String) :
    Except Fault α := do
  let cs := text.toList
  let document : Reader α := do
    Reader.blanks
    let settings ← Reader.attributes (cs.length + 1) settings
    let v ← value settings
    Reader.blanks
    return v
  let (v, rest) ← document cs
  if rest.isEmpty then return v else throw .malformed

end Tabletop.Ron
