import Tabletop.Text.Digit

/-!
# Lexemes

The smallest parts of a RON text: blanks with comments, identifiers, strings, characters and
numbers. Each reader gives what it read and the text behind it.
-/

namespace Tabletop.Ron

/-! ## Blanks and comments -/

/-- Where blanks are being passed over. A block comment knows how many others it stands in. -/
inductive Gap where
  | outside
  | line
  | block (depth : Nat)

def isSpace (c : Char) : Bool := c = ' ' || c = '\t' || c = '\n' || c = '\r'

/-- The text behind blanks and comments. A lone slash and an open block comment are refused. -/
def passBlanks : Gap → List Char → Option (List Char)
  | .outside, '/' :: '/' :: cs => passBlanks .line cs
  | .outside, '/' :: '*' :: cs => passBlanks (.block 0) cs
  | .outside, '/' :: _ => none
  | .outside, c :: cs => if isSpace c then passBlanks .outside cs else some (c :: cs)
  | .outside, [] => some []
  | .line, '\n' :: cs => passBlanks .outside cs
  | .line, _ :: cs => passBlanks .line cs
  | .line, [] => some []
  | .block depth, '/' :: '*' :: cs => passBlanks (.block (depth + 1)) cs
  | .block 0, '*' :: '/' :: cs => passBlanks .outside cs
  | .block (depth + 1), '*' :: '/' :: cs => passBlanks (.block depth) cs
  | .block depth, _ :: cs => passBlanks (.block depth) cs
  | .block _, [] => none

/-! ## Identifiers -/

def isLetter (c : Char) : Bool := ('a' ≤ c && c ≤ 'z') || ('A' ≤ c && c ≤ 'Z') || c = '_'

def isIdentifierChar (c : Char) : Bool := isLetter c || Text.isAsciiDigit c

/-- A raw identifier may hold these as well. -/
def isRawChar (c : Char) : Bool := isIdentifierChar c || c = '.' || c = '+' || c = '-'

/-- A plain identifier. It must not run on with characters that only a raw one may hold. -/
def plainIdentifier? (cs : List Char) : Option (String × List Char) :=
  let rest := cs.dropWhile isIdentifierChar
  if rest.head?.any isRawChar then none
  else some (String.ofList (cs.takeWhile isIdentifierChar), rest)

/-- An identifier, plain or behind `r#`. The start of a raw string is not one. -/
def identifier? : List Char → Option (String × List Char)
  | ['r'] => none
  | 'r' :: '"' :: _ => none
  | 'r' :: '#' :: cs =>
    if cs.head?.any isRawChar then
      some (String.ofList (cs.takeWhile isRawChar), cs.dropWhile isRawChar)
    else none
  | c :: cs => if isLetter c then plainIdentifier? (c :: cs) else none
  | [] => none

/-- The text behind a word that does not go on as a longer identifier. -/
def passWord? (word : String) (cs : List Char) : Option (List Char) :=
  (word.toList.isPrefixOf? cs).filter fun rest => !rest.head?.any isIdentifierChar

/-! ## Strings and characters -/

def hexValue? (c : Char) : Option Nat :=
  if Text.isAsciiDigit c then some (c.toNat - '0'.toNat)
  else if 'a' ≤ c && c ≤ 'f' then some (c.toNat - 'a'.toNat + 10)
  else if 'A' ≤ c && c ≤ 'F' then some (c.toNat - 'A'.toNat + 10)
  else none

/-- The number that hexadecimal digits write. -/
def hexadecimal? (cs : List Char) : Option Nat :=
  cs.foldlM (fun n c => (hexValue? c).map (16 * n + ·)) 0

/-- The character of a code point, if it is one. -/
def character? (n : Nat) : Option Char := if n.isValidChar then some (Char.ofNat n) else none

/-- The character of an escape whose backslash has been read. -/
def escape? : List Char → Option (Char × List Char)
  | '\'' :: cs => some ('\'', cs)
  | '"' :: cs => some ('"', cs)
  | '\\' :: cs => some ('\\', cs)
  | 'n' :: cs => some ('\n', cs)
  | 'r' :: cs => some ('\r', cs)
  | 't' :: cs => some ('\t', cs)
  | '0' :: cs => some ('\x00', cs)
  | 'x' :: high :: low :: cs => do return (← character? (← hexadecimal? [high, low]), cs)
  | 'u' :: '{' :: cs =>
    let digits := (cs.take 6).takeWhile (· ≠ '}')
    match cs.drop digits.length with
    | '}' :: rest =>
      if digits.isEmpty then none else do return (← character? (← hexadecimal? digits), rest)
    | _ => none
  | _ => none

/-- The inside of a string, up to its closing quote. An escape takes two characters at least. -/
def stringRest? : (tries : Nat) → List Char → Option (List Char × List Char)
  | 0, _ => none
  | tries + 1, cs =>
    let plain := cs.takeWhile fun c => !(c = '"' || c = '\\')
    match cs.dropWhile fun c => !(c = '"' || c = '\\') with
    | '"' :: rest => some (plain, rest)
    | '\\' :: rest => do
      let (c, rest) ← escape? rest
      let (more, rest) ← stringRest? tries rest
      return (plain ++ c :: more, rest)
    | _ => none

/-- The inside of a raw string, up to its closing mark. -/
def rawRest? (close : List Char) : List Char → Option (List Char × List Char)
  | [] => none
  | c :: cs =>
    match close.isPrefixOf? (c :: cs) with
    | some rest => some ([], rest)
    | none => (rawRest? close cs).map fun (inside, rest) => (c :: inside, rest)

/-- A string, plain or raw. -/
def string? : List Char → Option (String × List Char)
  | '"' :: cs => (stringRest? (cs.length + 1) cs).map fun (inside, rest) => (String.ofList inside, rest)
  | 'r' :: cs =>
    let hashes := cs.takeWhile (· = '#')
    match cs.dropWhile (· = '#') with
    | '"' :: rest => (rawRest? ('"' :: hashes) rest).map fun (inside, rest) => (String.ofList inside, rest)
    | _ => none
  | _ => none

/-- The text behind a character in single quotes. -/
def passCharacter? : List Char → Option (List Char)
  | '\'' :: '\\' :: cs => do
    match ← escape? cs with
    | (_, '\'' :: rest) => some rest
    | _ => none
  | '\'' :: c :: '\'' :: rest => if c = '\'' then none else some rest
  | _ => none

/-! ## Numbers -/

/-- The characters of a whole number, hexadecimal digits included. -/
def isWholeChar (c : Char) : Bool := (hexValue? c).isSome || c = '_'

def isDecimalChar (c : Char) : Bool :=
  Text.isAsciiDigit c || c = '+' || c = '-' || c = '.' || c = 'e' || c = 'E' || c = '_'

/-- The text behind one sign. -/
def afterSign : List Char → List Char
  | '+' :: cs => cs
  | '-' :: cs => cs
  | cs => cs

/-- Whole numbers keep to 64 bits, and to 63 with a sign; a minus sign allows one more. -/
def wholeLimit : List Char → Nat
  | '-' :: _ => 0x8000000000000000 + 1
  | '+' :: _ => 0x8000000000000000
  | _ => 0x10000000000000000

/-- The base that a whole number is written in, and its digits. -/
def baseOf : List Char → Nat × List Char
  | '0' :: 'x' :: cs => (16, cs)
  | '0' :: 'b' :: cs => (2, cs)
  | '0' :: 'o' :: cs => (8, cs)
  | cs => (10, cs)

/-- The value of digits in a base. Underscores may stand between them, but not first. -/
def wholeValue? (base : Nat) (digits : List Char) : Option Nat :=
  if digits.isEmpty || digits.head? = some '_' then none
  else
    (digits.filter (· ≠ '_')).foldlM (fun n c => do
      let d ← hexValue? c
      if d < base then some (base * n + d) else none) 0

/-- The text behind a whole number. -/
def passWhole? (cs : List Char) : Option (List Char) := do
  let (base, rest) := baseOf (afterSign cs)
  let n ← wholeValue? base (rest.takeWhile isWholeChar)
  if n < wholeLimit cs then some (rest.dropWhile isWholeChar) else none

/-- A decimal fraction: digits around a point, one at least, and perhaps an exponent. -/
def isDecimal (cs : List Char) : Bool :=
  let cs := afterSign cs
  let whole := cs.takeWhile Text.isAsciiDigit
  let rest := cs.dropWhile Text.isAsciiDigit
  let (part, rest) :=
    match rest with
    | '.' :: rest => (rest.takeWhile Text.isAsciiDigit, rest.dropWhile Text.isAsciiDigit)
    | rest => ([], rest)
  let exponent :=
    match rest with
    | [] => true
    | e :: rest =>
      (e = 'e' || e = 'E') && !(afterSign rest).isEmpty && (afterSign rest).all Text.isAsciiDigit
  !(whole.isEmpty && part.isEmpty) && exponent

/-- The text behind a decimal fraction, or behind the word for an infinite or undefined one. -/
def passDecimal? (cs : List Char) : Option (List Char) :=
  match ["inf", "+inf", "-inf", "NaN", "+NaN", "-NaN"].findSome? (passWord? · cs) with
  | some rest => some rest
  | none => if isDecimal (cs.takeWhile isDecimalChar) then some (cs.dropWhile isDecimalChar) else none

/-- The text behind a number. What is no whole number may still be a decimal fraction. -/
def passNumber? (cs : List Char) : Option (List Char) :=
  let body := afterSign cs
  if (body.takeWhile isWholeChar).length < (body.takeWhile isDecimalChar).length then passDecimal? cs
  else (passWhole? cs).orElse fun _ => passDecimal? cs

end Tabletop.Ron
