import Tabletop.Proofs.Dice.RoundTrip
import Tabletop.Proofs.Table.Expand
import Tabletop.Proofs.Table.Lookup

/-!
# Tables that name no roll

A table that names no roll is rolled with one die up to its greatest roll, if that is positive, and else with
any number between its ends. Either way it has an outcome, unless the die has more sides than dice can have.
-/

namespace Tabletop

open Tabletop.Random Tabletop.Random.Roll

namespace Dice

variable {text : String} {s : Source}

theorem run_evaluate {d : Dice} (h : parse text = .ok d) :
    (evaluate text).run s = (d.roll.run s).map fun (n, s') => (.ok n, s') := by
  unfold evaluate
  rw [h]
  exact run_liftM d.roll

theorem run_evaluate_error {e : Error} (h : parse text = .error e) : (evaluate text).run s = some (.error e, s) := by
  unfold evaluate
  rw [h]
  rfl

end Dice

namespace Table

variable {t : Table} {low high n : Int} {s s' : Source} {pairs : List (String × String)}
  {outcomes others : List (Key × String)}

/-! ## Written rolls -/

/-- The rolls that are covered by the keys of written outcomes. -/
def writtenRolls (pairs : List (String × String)) : Set Int :=
  {roll | ∃ pair ∈ pairs, ∃ key, Key.parse? pair.1 = some key ∧ key.Covers roll}

theorem covered_perm (h : outcomes.Perm others) : covered outcomes = covered others := by
  ext roll
  unfold covered
  simp only [Set.mem_ofPred_eq, h.mem_iff]

theorem covered_of_readOutcomes (h : readOutcomes pairs = .ok outcomes) : covered outcomes = writtenRolls pairs := by
  ext roll
  constructor
  · rintro ⟨⟨key, outcome⟩, hentry, hcovers⟩
    obtain ⟨text, hpair, hkey⟩ := (mem_readOutcomes h).mp hentry
    exact ⟨_, hpair, key, hkey, hcovers⟩
  · rintro ⟨⟨text, outcome⟩, hpair, key, hkey, hcovers⟩
    exact ⟨_, (mem_readOutcomes h).mpr ⟨text, hpair, hkey⟩, hcovers⟩

theorem covered_ofOutcomes (roll : Option String) (outcomes : List (Key × String)) :
    covered (ofOutcomes roll outcomes).outcomes = covered outcomes :=
  covered_perm (List.mergeSort_perm _ _)

theorem roll_ofOutcomes_none (h : IsGreatest (covered (ofOutcomes none outcomes).outcomes) high) (dice : String) :
    (ofOutcomes none outcomes).roll = some dice ↔ 1 ≤ high ∧ dice = "1d" ++ toString high := by
  refine (expand_roll_eq_some_iff _).trans ⟨?_, ?_⟩
  · rintro (hown | ⟨-, highest, hhighest, hpos, rfl⟩)
    · cases hown
    · rw [h.unique hhighest]
      exact ⟨hpos, rfl⟩
  · rintro ⟨hpos, rfl⟩
    exact .inr ⟨rfl, high, h, hpos, rfl⟩

/-! ## The draw -/

/-- What is rolled on a table from `low` to `high` that names no roll. -/
def ownDraw (low high : Int) : Draw Int :=
  if 1 ≤ high then do return ((← (Dice.mk 1 high.toNat false 0).roll : Nat) : Int)
  else Draw.between low high

section Own

variable (hroll : ∀ dice, t.roll = some dice ↔ 1 ≤ high ∧ dice = "1d" ++ toString high)
include hroll

theorem parse_own_roll (hlt : high < 0x100000000) :
    ∀ dice ∈ t.roll, Dice.parse dice = .ok ⟨1, high.toNat, false, 0⟩ := by
  intro dice hdice
  obtain ⟨hpos, rfl⟩ := (hroll dice).mp hdice
  obtain ⟨n, rfl⟩ := Int.eq_ofNat_of_zero_le (show 0 ≤ high by omega)
  exact Dice.parse_one_die (by omega) (by omega)

theorem run_draw_own (hlt : high < 0x100000000) (low : Int) (s : Source) :
    (t.draw none low high).run s = ((ownDraw low high).run s).map fun (n, s') => (.ok n, s') := by
  unfold ownDraw
  split
  next hpos =>
    have hdice := (hroll _).mpr ⟨hpos, rfl⟩
    have hparse := parse_own_roll hroll hlt _ hdice
    unfold draw
    rw [hdice]
    dsimp only
    rw [run_bind, run_adapt, Dice.run_evaluate hparse, StateT.run_bind]
    cases (Dice.mk 1 high.toNat false 0).roll.run s <;> rfl
  next hneg =>
    have hnone : t.roll = none := by
      rw [Option.eq_none_iff_forall_ne_some]
      intro dice hdice
      exact hneg ((hroll dice).mp hdice).1
    unfold draw
    rw [hnone]
    exact run_liftM _

theorem run_resolve_own_ne_error (h : t.coverage = coverageOf t.outcomes) (hlow : t.lowest? = some low)
    (hhigh : t.highest? = some high) (hlt : high < 0x100000000) (s s' : Source) (e : Error) :
    (t.resolve none).run s ≠ some (.error e, s') := by
  intro hrun
  have hdrawn := run_draw_own hroll hlt low s
  cases hdraw : (ownDraw low high).run s with
  | none =>
    rw [hdraw] at hdrawn
    rw [resolve_of_ends hlow hhigh, run_bind, hdrawn] at hrun
    cases hrun
  | some drawn =>
    rw [hdraw] at hdrawn
    obtain ⟨_, _, -, -, hanswer⟩ := run_resolve h hlow hhigh hdrawn
    rw [hanswer] at hrun
    cases hrun

theorem run_resolve_vast (hlow : t.lowest? = some low) (hhigh : t.highest? = some high)
    (hvast : 0x100000000 ≤ high) (s : Source) :
    (t.resolve none).run s = some (.error (.dice (.malformed ("1d" ++ toString high))), s) := by
  have hdice := (hroll _).mpr ⟨by omega, rfl⟩
  have hparse : Dice.parse ("1d" ++ toString high) = .error (.malformed ("1d" ++ toString high)) := by
    obtain ⟨n, rfl⟩ := Int.eq_ofNat_of_zero_le (show 0 ≤ high by omega)
    exact Dice.parse_vast_die (by omega)
  rw [resolve_of_ends hlow hhigh, run_bind]
  unfold draw
  rw [hdice]
  dsimp only
  rw [run_bind, run_adapt, Dice.run_evaluate_error hparse]
  rfl

end Own

/--
A table without a roll of its own, but with outcomes that cover anything, never fails, unless its greatest roll takes
more than 32 bits: then it cannot be rolled at all.
-/
theorem resolve_ofPairs_none (hkeys : ∀ pair ∈ pairs, ∃ key, Key.parse? pair.1 = some key)
    (hcovers : (writtenRolls pairs).Nonempty) :
    ∃ t low high, ofPairs none pairs = .ok t ∧
      IsLeast (writtenRolls pairs) low ∧ IsGreatest (writtenRolls pairs) high ∧
      (∀ dice, t.roll = some dice ↔ 1 ≤ high ∧ dice = "1d" ++ toString high) ∧
      (high < 0x100000000 →
        (∀ dice ∈ t.roll, Dice.parse dice = .ok ⟨1, high.toNat, false, 0⟩) ∧
        (∀ s s' e, (t.resolve none).run s ≠ some (.error e, s')) ∧
        ∀ s n s', (ownDraw low high).run s = some (n, s') →
          ∃ nearest outcome, IsGreatest {m ∈ writtenRolls pairs | m ≤ max low (min n high)} nearest ∧
            owner? t.outcomes nearest = some outcome ∧ (t.resolve none).run s = some (.ok outcome, s')) ∧
      (0x100000000 ≤ high → ∀ s,
        (t.resolve none).run s = some (.error (.dice (.malformed ("1d" ++ toString high))), s)) := by
  obtain ⟨outcomes, hread⟩ := exists_readOutcomes hkeys
  have hcoverage : (ofOutcomes none outcomes).coverage = coverageOf (ofOutcomes none outcomes).outcomes := rfl
  have hcovered : covered (ofOutcomes none outcomes).outcomes = writtenRolls pairs := by
    rw [covered_ofOutcomes, covered_of_readOutcomes hread]
  rw [← hcovered] at hcovers
  obtain ⟨low, high, hlow, hhigh⟩ := exists_ends hcoverage hcovers
  have hleast := (lowest?_eq_some_iff hcoverage).mp hlow
  have hgreatest := (highest?_eq_some_iff hcoverage).mp hhigh
  have hroll := roll_ofOutcomes_none hgreatest
  rw [← hcovered]
  refine ⟨_, low, high, ofPairs_eq_ok.mpr ⟨outcomes, hread, rfl⟩, hleast, hgreatest, hroll, fun hlt => ⟨?_, ?_, ?_⟩,
    run_resolve_vast hroll hlow hhigh⟩
  · exact parse_own_roll hroll hlt
  · exact run_resolve_own_ne_error hroll hcoverage hlow hhigh hlt
  · intro s n s' hdraw
    have hdrawn := run_draw_own hroll hlt low s
    rw [hdraw] at hdrawn
    exact run_resolve hcoverage hlow hhigh hdrawn

def den : List (String × String) := [("2-4", "bats"), ("7", "a dragon"), ("-2", "a trap"), ("6-5", "nothing")]

theorem resolve_ofPairs_none_den :
    (∀ pair ∈ den, ∃ key, Key.parse? pair.1 = some key) ∧ IsGreatest (writtenRolls den) 7 ∧
      ∃ t, ofPairs none den = .ok t ∧ t.roll = some "1d7" ∧
        (t.resolve none).run ⟨fun _ => 0, 0, 1⟩ = some (.ok "a trap", ⟨fun _ => 0, 1, 0⟩) := by
  have hkeys : ∀ pair ∈ den, ∃ key, Key.parse? pair.1 = some key := by
    simp only [← Option.isSome_iff_exists]
    decide +kernel
  have hread : readOutcomes den =
      .ok [(⟨2, 4⟩, "bats"), (⟨7, 7⟩, "a dragon"), (⟨-2, -2⟩, "a trap"), (⟨6, 5⟩, "nothing")] := by
    decide +kernel
  have hseven : IsGreatest (writtenRolls den) 7 := by
    rw [← covered_of_readOutcomes hread]
    exact (highest?_eq_some_iff (t := ⟨none, _, coverageOf _⟩) rfl).mp (by decide)
  have hsort : ofOutcomes none
      [(⟨2, 4⟩, "bats"), (⟨7, 7⟩, "a dragon"), (⟨-2, -2⟩, "a trap"), (⟨6, 5⟩, "nothing")] =
        expand ⟨none, [(⟨-2, -2⟩, "a trap"), (⟨2, 4⟩, "bats"), (⟨6, 5⟩, "nothing"), (⟨7, 7⟩, "a dragon")], []⟩ :=
    ofOutcomes_eq (by decide) (by unfold Ordered; decide) (by decide)
  obtain ⟨t, low, high, hbuilt, -, hhigh, -, hsmall, -⟩ := resolve_ofPairs_none hkeys ⟨7, hseven.1⟩
  obtain rfl := hseven.unique hhigh
  obtain rfl := Except.ok.inj ((ofPairs_eq_ok.mpr ⟨_, hread, hsort⟩).symm.trans hbuilt)
  have hone : (ownDraw low 7).run ⟨fun _ => 0, 0, 1⟩ = some (1, ⟨fun _ => 0, 1, 0⟩) := rfl
  obtain ⟨_, outcome, -, -, hrun⟩ := (hsmall (by decide)).2.2 _ _ _ hone
  have htrap : ((resolve (expand ⟨none, [(⟨-2, -2⟩, "a trap"), (⟨2, 4⟩, "bats"), (⟨6, 5⟩, "nothing"),
      (⟨7, 7⟩, "a dragon")], []⟩) none).run ⟨fun _ => 0, 0, 1⟩).map (·.1.toOption) = some (some "a trap") := by
    decide +kernel
  rw [hrun] at htrap
  cases htrap
  exact ⟨hkeys, hseven, _, hbuilt, by decide, hrun⟩

theorem resolve_ofPairs_none_vast :
    (∀ pair ∈ [("4294967296", "a hoard")], ∃ key, Key.parse? pair.1 = some key) ∧
      4294967296 ∈ writtenRolls [("4294967296", "a hoard")] ∧
      ∃ t, ofPairs none [("4294967296", "a hoard")] = .ok t ∧ t.roll = some "1d4294967296" ∧
        (∀ d, Dice.parse "1d4294967296" ≠ .ok d) ∧
        ∀ s, (t.resolve none).run s = some (.error (.dice (.malformed "1d4294967296")), s) := by
  have hkey : Key.parse? "4294967296" = some ⟨4294967296, 4294967296⟩ := by decide +kernel
  have hbuilt : ofPairs none [("4294967296", "a hoard")] =
      .ok ⟨some "1d4294967296", [(⟨4294967296, 4294967296⟩, "a hoard")], [(4294967296, "a hoard")]⟩ := by
    decide +kernel
  have hparse : Dice.parse "1d4294967296" = .error (.malformed "1d4294967296") := by decide +kernel
  refine ⟨List.forall_mem_singleton.mpr ⟨_, hkey⟩, ⟨_, List.mem_singleton_self _, _, hkey, by decide⟩, _, hbuilt, rfl,
    fun d h => ?_, fun s => ?_⟩
  · rw [hparse] at h
    cases h
  · rfl

end Table

end Tabletop
