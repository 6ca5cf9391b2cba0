import Tabletop.Ron.Reader

/-!
# Ignored values

A field that content does not know is passed over, whatever RON value it has.
-/

namespace Tabletop.Ron.Reader

/-- Whether an opened structure has positions instead of named fields. -/
def isPositional (cs : List Char) : Option Bool := do
  match identifier? (← passBlanks .outside cs) with
  | none => some true
  | some (_, rest) =>
    match ← passBlanks .outside rest with
    | [] => none
    | c :: _ => some (c != ':')

/-- How a value stands in the one around it. -/
inductive Position where
  /-- The value of a `Some`. -/
  | wrapped
  /-- In a list, a map or a structure. -/
  | item

/-- Passes over a structure in parentheses. -/
def ignoreStruct (value : Reader Unit) : Reader Unit := do
  match isPositional ((← get).drop 1) with
  | none => refuse
  | some true => let _ ← items "(" ")" value
  | some false => let _ ← items "(" ")" (pair identifier value)

/-- Passes over a value in which others stand, if there is room for them. -/
def ignoreNested (inner : Option (Position → Reader Unit)) (position : Position)
    (read : Reader Unit → Reader Unit) : Reader Unit :=
  match inner with
  | some value => read (value position)
  | none => refuse

/-- Passes over a value that starts with an identifier. -/
def ignoreNamed (inner : Option (Position → Reader Unit)) : Reader Unit := do
  let _ ← identifier
  blanks
  if ← nextIs (· = '(') then ignoreNested inner .item ignoreStruct

/-- Passes over a value that starts with a mark. -/
def ignoreMarked (inner : Option (Position → Reader Unit)) (c : Char) : Reader Unit :=
  if c = '(' then ignoreNested inner .item ignoreStruct
  else if c = '[' then ignoreNested inner .item fun value => do let _ ← items "[" "]" value
  else if c = '\x7b' then
    ignoreNested inner .item fun value => do let _ ← items "\x7b" "\x7d" (pair value value)
  else if c = '"' || c = 'r' then do let _ ← string
  else if c = '\'' then pass passCharacter?
  else if c = '.' then pass passDecimal?
  else if c = '+' || c = '-' || Text.isAsciiDigit c then pass passNumber?
  else refuse

/-- Passes over a value. `inner` does so for the values in it. -/
def ignoreWith (settings : Settings) (inner : Option (Position → Reader Unit)) : Reader Unit := do
  let cs ← get
  if (passWord? "Some" cs).isSome then
    let _ ← optional settings (ignoreNested inner .wrapped id)
  else if ← tryWords ["true", "false", "None", "inf", "NaN"] then
    return
  else if ← tryText "()" then
    return
  else
    match identifier? cs, cs with
    | some _, _ => ignoreNamed inner
    | none, c :: _ => ignoreMarked inner c
    | none, [] => refuse

/-- Passes over a value that stands in another, where `depth` more levels may be opened. An item
takes one of them itself. -/
def ignoreIn (settings : Settings) : (depth : Nat) → Position → Reader Unit
  | 0, .wrapped => ignoreWith settings none
  | 0, .item => refuse
  | depth + 1, .wrapped => ignoreWith settings (some (ignoreIn settings depth))
  | depth + 1, .item => ignoreIn settings depth .wrapped

/-- Passes over the value of a field. -/
def ignore (settings : Settings) (depth : Nat) : Reader Unit := ignoreIn settings depth .item

end Tabletop.Ron.Reader
