import Tabletop.Random.Source

/-!
# The seeded stream

The words of the ChaCha cipher with twelve rounds, under a key stretched from a 64-bit seed. The
words of all blocks, one after another, are one plain stream.
-/

namespace Tabletop.Random.Keystream

/-- The sixteen words that the cipher works on. -/
abbrev Words := Vector UInt32 16

def rotated (w : UInt32) (shift : UInt32) : UInt32 := (w <<< shift) ||| (w >>> (32 - shift))

/-- Mixes four of the words. -/
def quarterRound (w : Words) (a b c d : Fin 16) : Words :=
  let w := w.set a (w[a] + w[b])
  let w := w.set d (rotated (w[d] ^^^ w[a]) 16)
  let w := w.set c (w[c] + w[d])
  let w := w.set b (rotated (w[b] ^^^ w[c]) 12)
  let w := w.set a (w[a] + w[b])
  let w := w.set d (rotated (w[d] ^^^ w[a]) 8)
  let w := w.set c (w[c] + w[d])
  w.set b (rotated (w[b] ^^^ w[c]) 7)

/-- Mixes the four columns, then the four diagonals. -/
def doubleRound (w : Words) : Words :=
  let w := quarterRound w 0 4 8 12
  let w := quarterRound w 1 5 9 13
  let w := quarterRound w 2 6 10 14
  let w := quarterRound w 3 7 11 15
  let w := quarterRound w 0 5 10 15
  let w := quarterRound w 1 6 11 12
  let w := quarterRound w 2 7 8 13
  quarterRound w 3 4 9 14

/-- The words of one block. -/
def block (key : Vector UInt32 8) (counter : UInt64) : Words :=
  let start : Words := #v[
    0x61707865, 0x3320646e, 0x79622d32, 0x6b206574,
    key[0], key[1], key[2], key[3], key[4], key[5], key[6], key[7],
    counter.toUInt32, (counter >>> 32).toUInt32, 0, 0]
  (Nat.repeat doubleRound 6 start).zipWith (· + ·) start

/-- One step of the generator that stretches a seed. -/
def stretch (s : UInt64) : UInt64 := s * 6364136223846793005 + 11634580027462260723

/-- The key word that a stretched seed gives: its high bits, rotated by its top five. -/
def keyWord (s : UInt64) : UInt32 :=
  let w := (((s >>> 18) ^^^ s) >>> 27).toUInt32
  let shift := (s >>> 59).toUInt32
  (w >>> shift) ||| (w <<< ((32 - shift) % 32))

/-- The key of a seed: eight words, the seed stretched before each. -/
def key (seed : UInt64) : Vector UInt32 8 :=
  Vector.ofFn fun i => keyWord (Nat.repeat stretch (i + 1) seed)

/-- The word at each place of the stream. -/
def stream (key : Vector UInt32 8) (n : Nat) : UInt32 :=
  (block key (UInt64.ofNat (n / 16)))[n % 16]

end Tabletop.Random.Keystream

namespace Tabletop.Random

/-- More words than any computation draws before its reader gives up. -/
def Source.plenty : Nat := 0x4000000000000000

/-- The source of a seed. -/
def Source.seeded (seed : UInt64) : Source :=
  let key := Keystream.key seed
  .ofStream (Keystream.stream key) plenty

end Tabletop.Random
