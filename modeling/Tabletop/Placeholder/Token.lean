import Tabletop.Dice.Expression
import Tabletop.Name

/-!
# Tokens

Cutting a text into tokens and the letters between them, and a token into its parts. A token runs
from a brace to the next closing brace. Its first part gives a quantity, its last part a result, and
the name of an entity may stand anywhere behind the quantity.
-/

namespace Tabletop.Placeholder

/-! ## Pieces of a text -/

inductive Piece where
  | letter (c : Char)
  /-- A token, braces included. -/
  | token (cs : List Char)
deriving Repr, DecidableEq

def Piece.text : Piece → List Char
  | .letter c => [c]
  | .token cs => cs

def Piece.token? : Piece → Option (List Char)
  | .letter _ => none
  | .token cs => some cs

/-- The pieces of a text after `held`, the last letter first, has been read of an open token. -/
def piecesAfter : (held : List Char) → List Char → List Piece
  | held, [] => held.reverse.map .letter
  | [], c :: cs => if c = '{' then piecesAfter [c] cs else .letter c :: piecesAfter [] cs
  | h :: held, c :: cs =>
    if c = '}' then .token (c :: h :: held).reverse :: piecesAfter [] cs
    else piecesAfter (c :: h :: held) cs

def pieces (text : List Char) : List Piece := piecesAfter [] text

theorem piecesAfter_text (held cs : List Char) :
    (piecesAfter held cs).flatMap Piece.text = held.reverse ++ cs := by
  fun_induction piecesAfter held cs with
  | case1 held => induction held.reverse <;> simp_all [Piece.text]
  | case2 cs ih => simp [ih]
  | case3 c cs _ ih => simp [ih, Piece.text]
  | case4 h held cs ih => simp [ih, Piece.text]
  | case5 h held c cs _ ih => simp [ih]

/-- Cutting a text loses nothing of it. -/
theorem pieces_text (text : List Char) : (pieces text).flatMap Piece.text = text := by
  simp [pieces, piecesAfter_text]

/-- The tokens of a text. -/
def tokens (text : List Char) : List (List Char) := (pieces text).filterMap Piece.token?

/-! ## Parts of a token -/

/-- A number in a token, as it is written. -/
inductive Amount where
  | absent
  | digits (cs : List Char)
  | dice (expression : Dice.Expression)
deriving Repr, DecidableEq

def Amount.isDice : Amount → Bool
  | .dice _ => true
  | _ => false

/-- What a token says, before any dice are rolled. -/
structure Outline where
  quantity : Amount
  /-- The normalized name. -/
  entity : String
  result : Amount
deriving Repr, DecidableEq

/-- A token without an entity is a placeholder only if it starts with dice. -/
def Outline.isKept (o : Outline) : Bool := o.quantity.isDice || !o.entity.isEmpty

/-- The characters of a name as it is written in a token. -/
def isNameChar (c : Char) : Bool :=
  ('a' ≤ c && c ≤ 'z') || ('A' ≤ c && c ≤ 'Z') || Text.isBlank c || "_',;:-()".toList.contains c

/-- The first run of name characters that starts at a border: behind a brace or a blank. -/
def nameRun : (atBorder : Bool) → List Char → List Char
  | _, [] => []
  | atBorder, c :: cs =>
    if atBorder && isNameChar c then (c :: cs).takeWhile isNameChar
    else nameRun (c = '{' || Text.isBlank c) cs

/-- The quantity at the start of a token's inside. Digits count only with a blank behind them. -/
def quantityOf (inside : List Char) : Amount :=
  match Dice.Expression.leading? inside with
  | some (e, _) => .dice e
  | none =>
    let digits := inside.takeWhile Text.isDigit
    match inside.dropWhile Text.isDigit with
    | c :: _ => if !digits.isEmpty && Text.isBlank c then .digits digits else .absent
    | [] => .absent

/-- The name in a token's inside. Leading dice are never part of it. -/
def nameOf (inside : List Char) : String :=
  let run :=
    match Dice.Expression.leading? inside with
    | some (_, rest) => nameRun false rest
    | none => nameRun true inside
  Name.normalize (String.ofList run)

/-- The result at the end of a token's inside, in front of the closing brace. -/
def resultOf (inside : List Char) : Amount :=
  match Dice.Expression.before? ['}'] inside with
  | some e => .dice e
  | none =>
    let digits := (inside.dropLast.reverse.takeWhile Text.isDigit).reverse
    if digits.isEmpty then .absent else .digits digits

/-- The parts of a token. Its inside is all that follows the opening brace. -/
def outline (token : List Char) : Outline :=
  let inside := token.drop 1
  ⟨quantityOf inside, nameOf inside, resultOf inside⟩

end Tabletop.Placeholder
