import Tabletop.Ron.Lexeme

/-!
# Readers

Readers of RON values, put together from lexemes. Values may nest, but only so deep.
-/

namespace Tabletop.Ron

inductive Fault where
  /-- The text is not RON, or not of the wanted shape. -/
  | malformed
  /-- The text is well formed, but a table in it has a bad outcome key. -/
  | invalidKey (key : String)
deriving Repr, DecidableEq

/-- Reads from the front of a text and leaves the rest. -/
abbrev Reader (α : Type) := StateT (List Char) (Except Fault) α

/-- How a text is read. -/
structure Settings where
  /-- An optional value may be written without `Some`. -/
  implicitSome : Bool
deriving Repr, DecidableEq

/--
The levels that values may open. A list, a map or a structure opens one, each item in it another,
and an optional value that is present one.
-/
def nesting : Nat := 128

namespace Reader

variable {α σ : Type}

def refuse : Reader α := throw .malformed

/-- The reader of a lexeme. -/
def ofLexeme (read? : List Char → Option (α × List Char)) : Reader α := fun cs =>
  match read? cs with
  | some result => .ok result
  | none => .error .malformed

/-- Passes over a lexeme that has no value. -/
def pass (read? : List Char → Option (List Char)) : Reader Unit :=
  ofLexeme fun cs => (read? cs).map ((), ·)

def blanks : Reader Unit := pass (passBlanks .outside)

/-- Passes over a lexeme if it comes next. -/
def tryPass (read? : List Char → Option (List Char)) : Reader Bool := fun cs =>
  match read? cs with
  | some rest => .ok (true, rest)
  | none => .ok (false, cs)

/-- Passes over a text if it comes next. -/
def tryText (text : String) : Reader Bool := tryPass text.toList.isPrefixOf?

/-- Passes over one of some words if it comes next and does not go on as a longer one. -/
def tryWords (words : List String) : Reader Bool := tryPass fun cs => words.findSome? (passWord? · cs)

def expect (text : String) : Reader Unit := do
  unless ← tryText text do refuse

/-- Whether the next character, if there is one, is such a character. -/
def nextIs (test : Char → Bool) : Reader Bool := do return (← get).head?.any test

/-- Passes over a comma and the blanks around it, if it comes next. -/
def tryComma : Reader Bool := do
  blanks
  if ← tryText "," then
    blanks
    return true
  else
    return false

/-- Items up to a closing text. Each adds to what was read, and commas stand between them. -/
def foldUntil (close : String) (item : σ → Reader σ) : (tries : Nat) → σ → Reader σ
  | 0, _ => refuse
  | tries + 1, acc => do
    blanks
    if ← tryText close then
      return acc
    else
      let acc ← item acc
      if ← tryComma then
        foldUntil close item tries acc
      else
        expect close
        return acc

/-- Items between two texts. A comma may stand behind the last one. -/
def fold (opening close : String) (item : σ → Reader σ) (start : σ) : Reader σ := do
  expect opening
  fun cs => foldUntil close item (cs.length + 1) start cs

/-- The items of a list, in order. -/
def items (opening close : String) (item : Reader α) : Reader (List α) := do
  let backwards ← fold opening close (fun acc => do return (← item) :: acc) []
  return backwards.reverse

def string : Reader String := ofLexeme string?

def identifier : Reader String := ofLexeme identifier?

/-- The colon between a key and its value. -/
def colon : Reader Unit := do
  blanks
  expect ":"
  blanks

/-- A key and its value. -/
def pair {κ : Type} (key : Reader κ) (value : Reader α) : Reader (κ × α) := do
  let k ← key
  colon
  return (k, ← value)

/-- The name in front of a structure. It may be left out, but not changed. -/
def structName (name : String) : Reader Unit := do
  if ← nextIs isIdentifierChar then
    unless (← identifier) = name do refuse
  blanks

/-- The fields of a structure. Each adds to what was read. -/
def struct (name : String) (field : String → σ → Reader σ) (start : σ) : Reader σ := do
  structName name
  fold "(" ")" (fun acc => do
    let label ← identifier
    colon
    field label acc) start

/-- Passes over `Some` and the parenthesis behind it. A `Some` without one is passed over as well. -/
def opensSome : Reader Bool := do
  if ← tryText "Some" then
    blanks
    tryText "("
  else
    return false

/-- A value that may be absent. -/
def optional (settings : Settings) (value : Reader α) : Reader (Option α) := do
  if ← tryText "None" then
    return none
  if ← opensSome then
    blanks
    let v ← value
    let _ ← tryComma
    expect ")"
    return some v
  else if settings.implicitSome then
    return some (← value)
  else
    refuse

end Reader

end Tabletop.Ron
