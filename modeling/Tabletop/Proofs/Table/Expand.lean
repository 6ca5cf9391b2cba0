import Tabletop.Proofs.Table.Coverage
import Tabletop.Proofs.Table.RoundTrip

/-!
# Tables worked out

What a table covers, and with what, is settled by its outcomes alone, whatever its coverage was before. It
also settles the roll of a table that names none. A table of outcomes with one key each does not depend on the
order that they come in.
-/

namespace Tabletop.Table

variable {t : Table} {dice : String}

theorem defaultRoll?_eq_some_iff (h : t.coverage = coverageOf t.outcomes) :
    t.defaultRoll? = some dice ↔
      ∃ highest, IsGreatest (covered t.outcomes) highest ∧ 1 ≤ highest ∧ dice = "1d" ++ toString highest := by
  unfold defaultRoll?
  simp only [Option.map_eq_some_iff, Option.filter_eq_some_iff, highest?_eq_some_iff h, decide_eq_true_eq,
    and_assoc, eq_comm (a := dice)]

theorem expand_roll_eq_some_iff (t : Table) :
    t.expand.roll = some dice ↔ t.roll = some dice ∨ t.roll = none ∧
      ∃ highest, IsGreatest (covered t.outcomes) highest ∧ 1 ≤ highest ∧ dice = "1d" ++ toString highest := by
  have hdefault : t.expand.defaultRoll? = some dice ↔
      ∃ highest, IsGreatest (covered t.outcomes) highest ∧ 1 ≤ highest ∧ dice = "1d" ++ toString highest :=
    defaultRoll?_eq_some_iff rfl
  have hroll : t.expand.roll = t.roll.orElse fun _ => t.expand.defaultRoll? := rfl
  rw [hroll]
  cases t.roll with
  | some own => simp
  | none => simpa using hdefault

theorem ofOutcomes_perm (roll : Option String) {outcomes others : List (Key × String)}
    (hnodup : (outcomes.map Prod.fst).Nodup) (hperm : others.Perm outcomes) :
    ofOutcomes roll others = ofOutcomes roll outcomes := by
  have hsorted := List.mergeSort_perm outcomes fun a b => a.1.le b.1
  have hnodup' := (hsorted.map Prod.fst).nodup_iff.mpr hnodup
  exact ofOutcomes_eq (hperm.trans hsorted.symm) (ordered_mergeSort outcomes) hnodup'

/--
Each roll that an outcome covers gets the text of the last that covers it, and no other roll is covered. A table without
a roll gets one die up to the greatest. Doing it again changes nothing.
-/
theorem expand_covers :
    (∀ t : Table,
      t.expand.outcomes = t.outcomes ∧
      Ascending.Sorted t.expand.coverage ∧
      (∀ roll, (∃ outcome, t.expand.coverage.lookup roll = some outcome) ↔ roll ∈ covered t.outcomes) ∧
      (∀ roll, t.expand.coverage.lookup roll = owner? t.outcomes roll) ∧
      (∀ dice, t.expand.roll = some dice ↔ t.roll = some dice ∨ t.roll = none ∧
        ∃ highest, IsGreatest (covered t.outcomes) highest ∧ 1 ≤ highest ∧ dice = "1d" ++ toString highest) ∧
      t.expand.expand = t.expand) ∧
    ∀ (roll : Option String) (outcomes others : List (Key × String)),
      (outcomes.map Prod.fst).Nodup → others.Perm outcomes → ofOutcomes roll others = ofOutcomes roll outcomes := by
  constructor
  · intro t
    have hlookup : ∀ roll, t.expand.coverage.lookup roll = owner? t.outcomes roll :=
      lookup_coverageOf t.outcomes
    refine ⟨rfl, sorted_coverageOf t.outcomes, ?_, hlookup, fun _ => expand_roll_eq_some_iff t, expand_expand t⟩
    intro roll
    simp only [hlookup]
    exact exists_owner?_iff
  · intro roll outcomes others hnodup hperm
    exact ofOutcomes_perm roll hnodup hperm

def ruins : List (Key × String) := [(⟨3, 6⟩, "bats"), (⟨5, 7⟩, "rats"), (⟨9, 2⟩, "nothing"), (⟨-2, -2⟩, "a trap")]

theorem expand_covers_ruins :
    (expand ⟨none, ruins, [(99, "stale")]⟩).coverage =
        [(-2, "a trap"), (3, "bats"), (4, "bats"), (5, "rats"), (6, "rats"), (7, "rats")] ∧
      (expand ⟨none, ruins, [(99, "stale")]⟩).roll = some "1d7" ∧
      (expand ⟨none, ruins, [(99, "stale")]⟩).coverage.lookup 6 = owner? ruins 6 ∧ owner? ruins 6 = some "rats" ∧
      (ruins.map Prod.fst).Nodup ∧ ruins.reverse.Perm ruins ∧
      ofOutcomes none ruins.reverse = ofOutcomes none ruins := by
  have hnodup : (ruins.map Prod.fst).Nodup := by decide
  have hperm : ruins.reverse.Perm ruins := List.reverse_perm ruins
  obtain ⟨-, -, -, hlookup, -, -⟩ := expand_covers.1 ⟨none, ruins, [(99, "stale")]⟩
  exact ⟨by decide, by decide, hlookup 6, by decide, hnodup, hperm, expand_covers.2 none ruins _ hnodup hperm⟩

end Tabletop.Table
