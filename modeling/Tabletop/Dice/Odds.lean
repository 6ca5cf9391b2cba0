import Tabletop.Ascending

/-!
# Odds

How many ways there are to roll each total, and the chances and averages that follow from them. A
die is given by its number of sides.
-/

namespace Tabletop.Dice

/-! ## Ways -/

/-- What becomes of a count that does not fit in 64 bits: it goes around, or counting stops there. -/
inductive Overflow where
  | wraps
  | stops
deriving Repr, DecidableEq

/-- What is kept of a count. -/
def Overflow.keep? : Overflow → Nat → Option Nat
  | wraps, n => some (n % 0x10000000000000000)
  | stops, n => if n < 0x10000000000000000 then some n else none

/-- Adds two rows of counts place by place. The longer row keeps its end. -/
def addRows? (o : Overflow) : List Nat → List Nat → Option (List Nat)
  | [], ys => some ys
  | x :: xs, [] => some (x :: xs)
  | x :: xs, y :: ys => do return (← o.keep? (x + y)) :: (← addRows? o xs ys)

/--
The ways after one more die. Each total, from the least, gives its ways to one total for every face. `next` are the
ways that lower totals have given.
-/
def withDie? (o : Overflow) (sides : Nat) : (next ways : List Nat) → Option (List Nat)
  | next, [] => some next
  | next, n :: ways => do
    match ← addRows? o (List.replicate sides n) next with
    | [] => return []
    | least :: next => return least :: (← withDie? o sides next ways)

/-- The ways to roll each total, from the total in which every die shows one. -/
def waysFromLeast? (o : Overflow) (dice : List Nat) : Option (List Nat) :=
  dice.foldlM (fun ways sides => withDie? o sides [] ways) [1]

/-- The totals that can be rolled, ascending, each with the number of ways to roll it. -/
def distribution? (o : Overflow) (dice : List Nat) : Option (List (Nat × Nat)) :=
  (waysFromLeast? o dice).map (·.mapIdx fun i ways => (dice.length + i, ways))

/-- The distribution, with counts that go around. -/
def distribution (dice : List Nat) : List (Nat × Nat) := (distribution? .wraps dice).getD []

/-! ## Chances -/

/-- The chance of each total in a distribution. There are none where there are no ways at all. -/
def probabilities (distribution : List (Nat × Nat)) : List (Nat × Float) :=
  let all := (distribution.map Prod.snd).foldr (· + ·) 0
  if all = 0 then []
  else distribution.map fun (total, ways) => (total, Float.ofNat ways / Float.ofNat all)

/-- The chance that two six-sided dice and a score meet a difficulty. -/
def passProbability (score difficulty : Int) : Float :=
  let odds := distribution [6, 6]
  let passing := odds.filter fun (total, _) => (total : Int) + score ≥ difficulty
  Float.ofNat ((passing.map Prod.snd).foldr (· + ·) 0) / Float.ofNat ((odds.map Prod.snd).foldr (· + ·) 0)

/-! ## Averages -/

/-- How the faces of a die are scored. -/
inductive Scoring where
  | plain
  /-- The highest face counts twice. -/
  | doubleOnMax
  /-- The highest face is kept and the die rolled again. -/
  | exploding
deriving Repr, DecidableEq

/-- The average score of one die. -/
def Scoring.average (scoring : Scoring) (sides : Nat) : Float :=
  let s := Float.ofNat sides
  match scoring with
  | plain => (s + 1) / 2
  | doubleOnMax => (s + 1) / 2 + 1
  | exploding => if 1 < sides then s * (s + 1) / (2 * (s - 1)) else s

/-- The average score of some dice, added up from the first to the last. -/
def expectedValue (dice : List Nat) (scoring : Scoring) : Float :=
  dice.foldl (fun sum sides => sum + scoring.average sides) 0

end Tabletop.Dice
