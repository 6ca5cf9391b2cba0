/-!
# Tallies

A tally counts entities whose text is the same every time, and keeps that text once.
-/

namespace Tabletop

structure Tally.Entry where
  name : String
  text : String
  count : Nat
deriving Repr, DecidableEq

/-- The names in the order in which they were first recorded. -/
structure Tally where
  entries : List Tally.Entry := []
deriving Repr, DecidableEq

namespace Tally

/-- Counts a name up, or puts it at the end with its text. -/
def recordIn (name text : String) : List Entry → List Entry
  | [] => [⟨name, text, 1⟩]
  | e :: rest =>
    if e.name = name then { e with count := e.count + 1 } :: rest else e :: recordIn name text rest

/-- Records a name. The text of its first record stays. -/
def record (t : Tally) (name text : String) : Tally := ⟨recordIn name text t.entries⟩

def get? (t : Tally) (name : String) : Option Entry := t.entries.find? (·.name = name)

def size (t : Tally) : Nat := t.entries.length

def isEmpty (t : Tally) : Bool := t.entries.isEmpty

end Tally

end Tabletop
