import Tabletop.Expansion.Evaluate
import Tabletop.Proofs.Expansion.Resolve
import Tabletop.Proofs.Random.Supply

/-!
# Completion

On a stream on which no roll goes on forever, an expansion comes to an end with a large enough supply.
The tree bounds the steps, so content that refers to itself makes no exception.
-/

namespace Tabletop

open Tabletop.Random Tabletop.Random.Roll

variable {word : Nat → UInt32}

/-! ## Tables -/

theorem Dice.completes_evaluate {text : String} (h : ∀ d, Dice.parse text = .ok d → d.roll.Completes word) :
    (Dice.evaluate text).Completes word := by
  refine completes_bind_of_reaches (completes_of_run _ fun _ => rfl) fun d hd => ?_
  obtain ⟨s, s', hrun⟩ := hd
  refine completes_liftM (h d ?_)
  cases hparse : Dice.parse text with
  | error e =>
    rw [hparse] at hrun
    cases hrun
  | ok found =>
    rw [hparse] at hrun
    cases hrun
    rfl

namespace Table

/-- What a table rolls comes to an end: the dice it names, or without any a number within its span. -/
structure Ends (word : Nat → UInt32) (t : Table) : Prop where
  dice : ∀ text ∈ t.roll, ∀ d, Dice.parse text = .ok d → d.roll.Completes word
  span : t.roll = none → ∀ low ∈ t.lowest?, ∀ high ∈ t.highest?, (Draw.between low high).Completes word

variable {t : Table}

theorem completes_draw (h : t.Ends word) (given : Option Int) {low high : Int} (hlow : low ∈ t.lowest?)
    (hhigh : high ∈ t.highest?) : (t.draw given low high).Completes word := by
  unfold draw
  split
  next => exact completes_pure _
  next text hroll =>
    exact completes_bind (completes_adapt (Dice.completes_evaluate (h.dice text hroll))) fun _ => completes_pure _
  next hroll => exact completes_liftM (h.span hroll low hlow high hhigh)

theorem completes_resolve (h : t.Ends word) (given : Option Int) : (t.resolve given).Completes word := by
  unfold resolve
  split
  next low high hlow hhigh =>
    refine completes_bind (completes_draw h given hlow hhigh) fun n => ?_
    split
    · exact completes_pure _
    · exact completes_throw _
  next => exact completes_throw _

end Table

/-! ## Placeholders -/

namespace Placeholder

def Amount.dice? : Amount → Option Dice
  | .dice e => e.dice?
  | _ => none

/-- The dice that reading a token rolls. -/
def tokenDice (token : List Char) : List Dice :=
  (outline token).quantity.dice?.toList ++ (outline token).resultPart.dice?.toList

/-- The dice that reading a text rolls. -/
def writtenDice (text : String) : List Dice := (tokens text.toList).flatMap tokenDice

theorem completes_rollWritten {e : Dice.Expression} (h : ∀ d ∈ e.dice?, d.roll.Completes word) :
    (rollWritten e).Completes word := by
  unfold rollWritten
  split
  next d hd => exact completes_liftM (h d hd)
  next => exact completes_throw _

theorem Amount.completes_quantity {a : Amount} (h : ∀ d ∈ a.dice?, d.roll.Completes word) :
    a.quantity.Completes word := by
  cases a with
  | absent => exact completes_pure 1
  | digits cs =>
    unfold quantity
    dsimp only
    split
    · exact completes_pure _
    · exact completes_throw _
  | dice e => exact completes_rollWritten h

theorem Amount.completes_result {a : Amount} (h : ∀ d ∈ a.dice?, d.roll.Completes word) :
    a.result.Completes word := by
  cases a with
  | absent => exact completes_pure none
  | digits cs => exact completes_pure _
  | dice e => exact completes_bind (completes_rollWritten h) fun _ => completes_pure _

theorem completes_ofToken {token : List Char} (h : ∀ d ∈ tokenDice token, d.roll.Completes word) :
    (ofToken token).Completes word := by
  simp only [tokenDice, List.forall_mem_append, Option.mem_toList] at h
  unfold ofToken
  dsimp only
  split
  · exact completes_bind (Amount.completes_quantity h.1) fun _ =>
      completes_bind (Amount.completes_result h.2) fun _ => completes_pure _
  · exact completes_pure none

theorem completes_ofTokens {ts : List (List Char)}
    (h : ∀ d ∈ ts.flatMap tokenDice, d.roll.Completes word) : (ofTokens ts).Completes word := by
  induction ts with
  | nil => exact completes_pure []
  | cons token rest ih =>
    rw [List.flatMap_cons, List.forall_mem_append] at h
    unfold ofTokens
    refine completes_bind (completes_ofToken h.1) fun found => ?_
    cases found with
    | none => exact ih h.2
    | some p => exact completes_bind (ih h.2) fun _ => completes_pure _

end Placeholder

/-! ## Expansions -/

namespace Expander

open Placeholder (writtenDice)

theorem completes_find (x : Expander) (name : String) : (x.find name).Completes word :=
  completes_of_run _ fun _ => rfl

theorem completes_read {text : String} (h : ∀ d ∈ writtenDice text, d.roll.Completes word) :
    (read text).Completes word :=
  completes_adapt (Placeholder.completes_ofTokens h)

theorem completes_parseSingle {text : String} (h : ∀ d ∈ writtenDice (braced text), d.roll.Completes word) :
    (parseSingle text).Completes word := by
  refine completes_bind (completes_read h) fun found => ?_
  split
  · exact completes_pure _
  · exact completes_throw _

/-- The tree bounds the steps, so it is enough that each of them comes to an end. -/
theorem completes_run {x : Expander} {mode : Expansion.Mode}
    (h : ∀ p, (x.resolve p mode.rolls).Completes word) (room : Nat) (s : Expansion.Progress) :
    (x.run mode room s).Completes word := by
  induction room generalizing s with
  | zero => exact completes_pure s.done
  | succ room ih =>
    unfold run
    split
    · exact completes_pure s.done
    · exact completes_bind (h _) fun node => ih _

theorem completes_rollTable {e : Entity} (given : Option Int) {rolls : Bool}
    (h : rolls = true → ∀ t ∈ e.table, t.Ends word) : (rollTable e given rolls).Completes word := by
  unfold rollTable
  split
  next t htable =>
    split
    next hrolls =>
      exact completes_bind (completes_adapt (Table.completes_resolve (h hrolls t htable) given)) fun _ =>
        completes_pure _
    next => exact completes_pure none
  next => exact completes_pure none

theorem completes_resolve {x : Expander} {p : Placeholder} {rolls : Bool}
    (htable : rolls = true → ∀ e, x.lookup p.entity = .ok e → ∀ t ∈ e.table, t.Ends word)
    (htext : ∀ e outcome, x.lookup p.entity = .ok e → (rollTable e p.result rolls).Reaches outcome →
      ∀ d ∈ writtenDice (x.readText e outcome), d.roll.Completes word) :
    (x.resolve p rolls).Completes word := by
  refine completes_bind_of_reaches (completes_find x _) fun e he => ?_
  obtain ⟨s, s', hfind⟩ := he
  have hlookup := (find_ok hfind).1
  refine completes_bind_of_reaches (completes_rollTable p.result fun hrolls => htable hrolls e hlookup)
    fun outcome houtcome => ?_
  obtain ⟨t, t', hrolled⟩ := houtcome
  rw [← (rollTable_ok hrolled).1]
  exact completes_bind (completes_read (htext e outcome hlookup ⟨t, t', hrolled⟩)) fun _ => completes_pure _

section Lively

variable (hword : Lively word) (x : Expander)
include hword

theorem completes_expand (mode : Expansion.Mode) (root : Placeholder) :
    (x.expand mode root).Completes word := by
  refine completes_run (fun p => completes_resolve (fun _ _ _ t _ => ?_) fun _ _ _ _ d _ => hword.roll d) _ _
  exact ⟨fun _ _ d _ => hword.roll d, fun _ low _ high _ => hword.between low high⟩

theorem completes_evaluate (mode : Expansion.Mode) (text : String) :
    (x.evaluate mode text).Completes word := by
  refine completes_bind (completes_parseSingle fun d _ => hword.roll d) fun p => ?_
  split
  · exact completes_bind (completes_adapt (Dice.completes_evaluate fun d _ => hword.roll d)) fun _ =>
      completes_pure _
  · refine completes_bind (completes_find x _) fun e => ?_
    refine completes_bind (completes_read fun d _ => hword.roll d) fun nested => ?_
    split
    · exact completes_bind (completes_expand hword x mode p) fun _ => completes_pure _
    · exact completes_pure _

end Lively

end Expander

end Tabletop
