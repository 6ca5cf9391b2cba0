/-!
# Random sources

A source is a stream of random words, read from the front. Its supply is finite: a computation that
would go on drawing past it has no result, so a result never depends on how large the supply is.
-/

namespace Tabletop.Random

structure Source where
  /-- The word at each place of the stream. -/
  word : Nat → UInt32
  /-- Words taken so far. -/
  drawn : Nat
  /-- Words that may still be taken. -/
  supply : Nat

/-- A computation that draws words. It is `none` where the supply ends first. -/
abbrev Draw (α : Type) := StateT Source Option α

/-- A computation that draws words and may fail. The source stays as the failure left it. -/
abbrev Roll (ε α : Type) := ExceptT ε (StateT Source Option) α

namespace Source

/-- A stream from its first word on. -/
def ofStream (word : Nat → UInt32) (supply : Nat) : Source := ⟨word, 0, supply⟩

/-- The stream that gives `words` before anything else. -/
def prepend (words : Array UInt32) (stream : Nat → UInt32) (n : Nat) : UInt32 :=
  if h : n < words.size then words[n] else stream (n - words.size)

/-- The next word, and the source after it. -/
def next? (s : Source) : Option (UInt32 × Source) :=
  match s.supply with
  | 0 => none
  | supply + 1 => some (s.word s.drawn, ⟨s.word, s.drawn + 1, supply⟩)

end Source

namespace Draw

/-- One word. -/
def word : Draw UInt32 := Source.next?

/-- A number of `words` words, the low one first. -/
def number : (words : Nat) → Draw Nat
  | 0 => pure 0
  | words + 1 => do
    let low ← word
    let high ← number words
    return low.toNat + 0x100000000 * high

/-- Repeats a draw until it is accepted, `tries` times at most. -/
def firstAccepted {α β : Type} (draw : Draw α) (accept? : α → Option β) : (tries : Nat) → Draw β
  | 0 => fun _ => none
  | tries + 1 => do
    match accept? (← draw) with
    | some b => return b
    | none => firstAccepted draw accept? tries

end Draw

end Tabletop.Random
