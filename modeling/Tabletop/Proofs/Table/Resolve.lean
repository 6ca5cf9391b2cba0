import Tabletop.Proofs.Random.Run
import Tabletop.Proofs.Table.Coverage

/-!
# Outcomes of a table

A table that covers any roll, and whose own roll can be read, comes to one of its outcomes whatever is
rolled or asked for.
-/

namespace Tabletop

open Tabletop.Random Tabletop.Random.Roll

theorem Dice.yields_evaluate {text : String} {d : Dice} (h : Dice.parse text = .ok d) :
    (Dice.evaluate text).Yields fun _ => True := by
  unfold evaluate
  rw [h]
  exact yields_bind (P := (· = d)) (yields_pure rfl) fun d _ => yields_liftM d.roll

namespace Table

/-! ## Resolving -/

variable {t : Table}

theorem le_clamp {low high n : Int} : low ≤ Dice.clamp low high n := by
  unfold Dice.clamp
  omega

theorem outcomeAt?_of_lowest? {low roll : Int} (hlow : t.lowest? = some low) (hle : low ≤ roll) :
    ∃ outcome ∈ t.coverage.map Prod.snd, t.outcomeAt? roll = some outcome := by
  obtain ⟨first, hfirst, rfl⟩ := Option.map_eq_some_iff.mp hlow
  have hat : t.outcomeAt? roll =
      (t.coverage.filter fun pair => decide (pair.1 ≤ roll)).getLast?.map Prod.snd := rfl
  have hmem : first ∈ t.coverage.filter fun pair => decide (pair.1 ≤ roll) := by
    rw [List.mem_filter]
    exact ⟨List.mem_of_mem_head? hfirst, by simpa using hle⟩
  have hne := List.ne_nil_of_mem hmem
  refine ⟨((t.coverage.filter fun pair => decide (pair.1 ≤ roll)).getLast hne).2, ?_, ?_⟩
  · exact List.mem_map_of_mem (List.mem_filter.mp (List.getLast_mem hne)).1
  · rw [hat, List.getLast?_eq_some_getLast hne]
    rfl

def RollReadable (t : Table) : Prop := ∀ dice ∈ t.roll, ∃ d, Dice.parse dice = .ok d

theorem yields_draw (hroll : t.RollReadable) (given : Option Int) (low high : Int) :
    (t.draw given low high).Yields fun _ => True := by
  unfold draw
  split
  · exact yields_pure trivial
  next dice hdice =>
    obtain ⟨d, hd⟩ := hroll dice hdice
    exact yields_bind (yields_adapt (Dice.yields_evaluate hd)) fun _ _ => yields_pure trivial
  · exact yields_liftM _

theorem yields_resolve (hroll : t.RollReadable) (hcoverage : t.coverage ≠ []) (given : Option Int) :
    (t.resolve given).Yields (· ∈ t.coverage.map Prod.snd) := by
  obtain ⟨first, rest, hcons⟩ := List.exists_cons_of_ne_nil hcoverage
  have hlow : t.lowest? = some first.1 := by rw [lowest?, hcons]; rfl
  have hhigh : t.highest? = some (t.coverage.getLast hcoverage).1 := by
    rw [highest?, List.getLast?_eq_some_getLast hcoverage]
    rfl
  unfold resolve
  rw [hlow, hhigh]
  refine yields_bind (yields_draw hroll given _ _) fun n _ => ?_
  obtain ⟨outcome, hmem, hat⟩ := outcomeAt?_of_lowest? hlow (le_clamp (n := n))
  rw [hat]
  exact yields_pure hmem

end Table

end Tabletop
