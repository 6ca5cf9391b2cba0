import Tabletop.Proofs.Placeholder.Reading
import Tabletop.Proofs.Random.Pair

/-!
# Unrolled placeholders

Whatever is rolled, reading a text comes to the same placeholders but for the numbers that are written as
dice. Those aside, nothing in a placeholder tells one source from another.
-/

namespace Tabletop.Placeholder

open Tabletop.Random Tabletop.Random.Roll

/-- The placeholder without the numbers that were rolled for it. -/
def unrolled (p : Placeholder) : Placeholder :=
  { p with
    quantity := if p.quantityDice.isEmpty then p.quantity else 0
    result := if p.resultDice.isEmpty then p.result else none }

theorem quantity_eq_of_unrolled {p q : Placeholder} (h : p.unrolled = q.unrolled)
    (hdice : p.quantityDice.isEmpty = true) : p.quantity = q.quantity := by
  have hdice' : q.quantityDice.isEmpty = true := by
    have : p.unrolled.quantityDice = q.unrolled.quantityDice := by rw [h]
    rwa [show p.quantityDice = q.quantityDice from this] at hdice
  have hquantity : p.unrolled.quantity = q.unrolled.quantity := by rw [h]
  simpa only [unrolled, hdice, hdice', if_true] using hquantity

theorem refersToEntity_unrolled (ps : List Placeholder) :
    refersToEntity (ps.map unrolled) = refersToEntity ps := by
  simp only [refersToEntity, List.any_map]
  rfl

theorem Amount.alike_quantity (a : Amount) :
    Alike (fun n => if a.diceText.isEmpty then n else 0) a.quantity a.quantity := by
  cases a with
  | absent => exact alike_pure rfl
  | digits cs =>
    simp only [quantity]
    cases Text.count? cs with
    | some n => exact alike_pure rfl
    | none => exact alike_throw _
  | dice e =>
    apply (hasFault_quantity (.dice e)).alike
    intro n n'
    simp [diceText_isEmpty, isDice]

theorem Amount.alike_result (a : Amount) :
    Alike (fun n => if a.diceText.isEmpty then n else none) a.result a.result := by
  cases a with
  | absent => exact alike_pure rfl
  | digits cs => exact alike_pure rfl
  | dice e =>
    apply (hasFault_result (.dice e)).alike
    intro n n'
    simp [diceText_isEmpty, isDice]

theorem alike_ofToken (token : List Char) :
    Alike (Option.map unrolled) (ofToken token) (ofToken token) := by
  unfold ofToken
  dsimp only
  split
  · refine alike_bind (Amount.alike_quantity _) fun quantity quantity' _ hquantity => ?_
    refine alike_bind (Amount.alike_result _) fun result result' _ hresult => alike_pure ?_
    simp only [Option.map_some, unrolled, hquantity, hresult]
  · exact alike_pure rfl

theorem alike_ofTokens (ts : List (List Char)) :
    Alike (List.map unrolled) (ofTokens ts) (ofTokens ts) := by
  induction ts with
  | nil => exact alike_pure rfl
  | cons token rest ih =>
    unfold ofTokens
    refine alike_bind (alike_ofToken token) fun found found' _ hfound => ?_
    cases found with
    | none =>
      rw [Option.map_none] at hfound
      rw [Option.map_eq_none_iff.mp hfound.symm]
      exact ih
    | some p =>
      rw [Option.map_some] at hfound
      obtain ⟨p', rfl, hp⟩ := Option.map_eq_some_iff.mp hfound.symm
      refine alike_bind ih fun ps ps' _ hps => alike_pure ?_
      rw [List.map_cons, List.map_cons, hps, hp]

theorem alike_parse (text : String) : Alike (List.map unrolled) (parse text) (parse text) :=
  alike_ofTokens _

end Tabletop.Placeholder
