import Tabletop.Proofs.Table.Resolve
import Tabletop.Proofs.Table.RoundTrip

/-!
# Looking up a number

What a built table gives for a number. The number is moved to the nearest end of the table, and the outcome is
that of the greatest covered roll from there down, so a gap belongs to the roll below it.
-/

namespace Tabletop.Table

open Tabletop.Random Tabletop.Random.Roll

variable {t : Table} {low high n roll : Int} {outcome : String} {given : Option Int} {s s' : Source}

/-- The tables there are before anyone changes one: built from outcomes, under keys or written keys. -/
inductive Built : Table → Prop where
  | ofOutcomes (roll : Option String) (outcomes : List (Key × String)) : Built (Table.ofOutcomes roll outcomes)
  | ofPairs {t : Table} {roll : Option String} {pairs : List (String × String)}
      (h : Table.ofPairs roll pairs = .ok t) : Built t

theorem Built.coverage_eq (h : Built t) : t.coverage = coverageOf t.outcomes := by
  cases h with
  | ofOutcomes roll outcomes => rfl
  | ofPairs h =>
    obtain ⟨outcomes, -, rfl⟩ := ofPairs_eq_ok.mp h
    rfl

/-! ## The number that is looked up -/

theorem resolve_of_ends (hlow : t.lowest? = some low) (hhigh : t.highest? = some high) (given : Option Int) :
    t.resolve given = (do
      let n ← t.draw given low high
      match t.outcomeAt? (Dice.clamp low high n) with
      | some outcome => return outcome
      | none => throw .empty) := by
  unfold resolve
  rewrite [hlow, hhigh]
  rfl

theorem resolve_some (hlow : t.lowest? = some low) (hhigh : t.highest? = some high) (n : Int) :
    t.resolve (some n) =
      match t.outcomeAt? (Dice.clamp low high n) with
      | some outcome => pure outcome
      | none => throw .empty := by
  rw [resolve_of_ends hlow hhigh]
  rfl

theorem run_draw_ne_empty : (t.draw given low high).run s ≠ some (.error .empty, s') := by
  intro h
  unfold draw at h
  split at h
  · cases h
  · rw [run_bind, run_adapt] at h
    obtain ⟨⟨result, t⟩, hresult, h⟩ := Option.bind_eq_some_iff.mp h
    obtain ⟨⟨rolled, t⟩, -, hrolled⟩ := Option.map_eq_some_iff.mp hresult
    cases hrolled
    cases rolled <;> cases h
  · rw [run_liftM] at h
    obtain ⟨_, -, h⟩ := Option.map_eq_some_iff.mp h
    cases h

section Expanded

variable (h : t.coverage = coverageOf t.outcomes)
include h

theorem exists_nearest (hlow : t.lowest? = some low) (high n : Int) :
    ∃ nearest outcome, t.outcomeAt? (Dice.clamp low high n) = some outcome ∧
      IsGreatest {m ∈ covered t.outcomes | m ≤ Dice.clamp low high n} nearest ∧
      owner? t.outcomes nearest = some outcome := by
  have hle : low ≤ Dice.clamp low high n := le_clamp
  obtain ⟨outcome, -, hat⟩ := outcomeAt?_of_lowest? hlow hle
  obtain ⟨nearest, hnearest, howner⟩ := (outcomeAt?_eq_some_iff h).mp hat
  exact ⟨nearest, outcome, hat, hnearest, howner⟩

theorem run_resolve (hlow : t.lowest? = some low) (hhigh : t.highest? = some high)
    (hdraw : (t.draw given low high).run s = some (.ok n, s')) :
    ∃ nearest outcome, IsGreatest {m ∈ covered t.outcomes | m ≤ Dice.clamp low high n} nearest ∧
      owner? t.outcomes nearest = some outcome ∧ (t.resolve given).run s = some (.ok outcome, s') := by
  obtain ⟨nearest, outcome, hat, hnearest, howner⟩ := exists_nearest h hlow high n
  refine ⟨nearest, outcome, hnearest, howner, ?_⟩
  rw [resolve_of_ends hlow hhigh, run_bind_ok_iff]
  refine ⟨n, s', hdraw, ?_⟩
  rw [hat]
  rfl

theorem lowest?_eq_none (hempty : covered t.outcomes = ∅) : t.lowest? = none := by
  rw [Option.eq_none_iff_forall_ne_some]
  intro low hlow
  have hleast := (lowest?_eq_some_iff h).mp hlow
  rw [hempty] at hleast
  exact hleast.1

theorem run_resolve_empty_iff :
    (t.resolve given).run s = some (.error .empty, s') ↔ covered t.outcomes = ∅ ∧ s' = s := by
  rcases (covered t.outcomes).eq_empty_or_nonempty with hempty | hcovered
  · have hresolve : t.resolve given = throw .empty := by
      unfold resolve
      rw [lowest?_eq_none h hempty]
    rw [hresolve]
    constructor
    · intro hrun
      cases hrun
      exact ⟨hempty, rfl⟩
    · rintro ⟨-, rfl⟩
      rfl
  · obtain ⟨low, high, hlow, hhigh⟩ := exists_ends h hcovered
    constructor
    · intro hrun
      -- Only the draw can fail here, and it never says that the table is empty.
      rw [resolve_of_ends hlow hhigh, run_bind] at hrun
      obtain ⟨⟨result, s''⟩, hdraw, hrun⟩ := Option.bind_eq_some_iff.mp hrun
      cases result with
      | error e =>
        cases hrun
        exact absurd hdraw run_draw_ne_empty
      | ok n =>
        obtain ⟨_, _, hat, -⟩ := exists_nearest h hlow high n
        dsimp only at hrun
        rw [hat] at hrun
        cases hrun
    · rintro ⟨hempty, -⟩
      exact absurd hempty hcovered.ne_empty

theorem outcomeAt?_of_nearest {nearest : Int} (hnearest : IsGreatest {m ∈ covered t.outcomes | m ≤ roll} nearest) :
    t.outcomeAt? roll = owner? t.outcomes nearest := by
  apply Option.ext
  intro outcome
  rw [outcomeAt?_eq_some_iff h]
  constructor
  · rintro ⟨nearest', hnearest', howner⟩
    rwa [hnearest.unique hnearest']
  · exact fun howner => ⟨nearest, hnearest, howner⟩

theorem resolve_of_nearest {nearest : Int} (hnearest : IsGreatest {m ∈ covered t.outcomes | m ≤ n} nearest) :
    t.resolve (some n) = t.resolve (some nearest) := by
  obtain ⟨low, high, hlow, hhigh⟩ := exists_ends h ⟨nearest, hnearest.1.1⟩
  have hle : nearest ≤ n := hnearest.1.2
  have hlow' : low ≤ nearest := ((lowest?_eq_some_iff h).mp hlow).2 hnearest.1.1
  have hhigh' : nearest ≤ high := ((highest?_eq_some_iff h).mp hhigh).2 hnearest.1.1
  -- The covered rolls up to `n` and up to `nearest` end at the same one.
  have hclamped (m : Int) (hm : nearest ≤ m) (hmn : m ≤ n) :
      IsGreatest {roll ∈ covered t.outcomes | roll ≤ Dice.clamp low high m} nearest := by
    have hclamp : nearest ≤ Dice.clamp low high m ∧ Dice.clamp low high m ≤ m := by
      unfold Dice.clamp
      omega
    refine ⟨⟨hnearest.1.1, hclamp.1⟩, fun roll hroll => ?_⟩
    exact hnearest.2 ⟨hroll.1, le_trans hroll.2 (le_trans hclamp.2 hmn)⟩
  rw [resolve_some hlow hhigh, resolve_some hlow hhigh, outcomeAt?_of_nearest h (hclamped n hle le_rfl),
    outcomeAt?_of_nearest h (hclamped nearest le_rfl hle)]

theorem resolve_of_le (hlow : t.lowest? = some low) (hle : n ≤ low) :
    t.resolve (some n) = t.resolve (some low) := by
  have hleast := (lowest?_eq_some_iff h).mp hlow
  obtain ⟨_, high, -, hhigh⟩ := exists_ends h ⟨low, hleast.1⟩
  have hclamp : Dice.clamp low high n = Dice.clamp low high low := by
    unfold Dice.clamp
    omega
  rw [resolve_some hlow hhigh, resolve_some hlow hhigh, hclamp]

end Expanded

/--
A built table refuses to answer just if it covers nothing. Otherwise every number has the outcome of the greatest covered
roll up to it, or up to the nearest end, and nothing is drawn.
-/
theorem resolve_built {t : Table} (hbuilt : Built t) :
    (∀ low, t.lowest? = some low ↔ IsLeast (covered t.outcomes) low) ∧
      (∀ high, t.highest? = some high ↔ IsGreatest (covered t.outcomes) high) ∧
      t.gaps.Pairwise (· < ·) ∧
      (∀ roll, roll ∈ t.gaps ↔ roll ∉ covered t.outcomes ∧
        ∃ low high, IsLeast (covered t.outcomes) low ∧ IsGreatest (covered t.outcomes) high ∧
          low ≤ roll ∧ roll ≤ high) ∧
      (∀ given s s', (t.resolve given).run s = some (.error .empty, s') ↔ covered t.outcomes = ∅ ∧ s' = s) ∧
      ((covered t.outcomes).Nonempty →
        ∃ low high, IsLeast (covered t.outcomes) low ∧ IsGreatest (covered t.outcomes) high ∧
          (∀ n, ∃ nearest outcome,
            IsGreatest {m ∈ covered t.outcomes | m ≤ max low (min n high)} nearest ∧
            owner? t.outcomes nearest = some outcome ∧
            ∀ roll s, (resolve { t with roll := roll } (some n)).run s = some (.ok outcome, s)) ∧
          (∀ n nearest, IsGreatest {m ∈ covered t.outcomes | m ≤ n} nearest →
            t.resolve (some n) = t.resolve (some nearest)) ∧
          ∀ n ≤ low, t.resolve (some n) = t.resolve (some low)) := by
  have h := hbuilt.coverage_eq
  refine ⟨fun _ => lowest?_eq_some_iff h, fun _ => highest?_eq_some_iff h, pairwise_gaps h, fun _ => mem_gaps_iff h,
    fun _ _ _ => run_resolve_empty_iff h, fun hcovered => ?_⟩
  obtain ⟨low, high, hlow, hhigh⟩ := exists_ends h hcovered
  refine ⟨low, high, (lowest?_eq_some_iff h).mp hlow, (highest?_eq_some_iff h).mp hhigh, ?_,
    fun _ _ => resolve_of_nearest h, fun _ => resolve_of_le h hlow⟩
  intro n
  obtain ⟨nearest, outcome, hat, hnearest, howner⟩ := exists_nearest h hlow high n
  refine ⟨nearest, outcome, hnearest, howner, fun roll s => ?_⟩
  -- The ends and the coverage are the same, whatever the roll.
  have hresolve := resolve_some (t := { t with roll := roll }) hlow hhigh n
  have hat' : outcomeAt? { t with roll := roll } (Dice.clamp low high n) = some outcome := hat
  rw [hresolve, hat']
  rfl

theorem resolve_built_lair :
    ∃ t, ofPairs none [("7-9", "a dragon"), ("-2", "a trap"), ("5-2", "nothing"), ("3-4", "bats")] = .ok t ∧
      (covered t.outcomes).Nonempty ∧ t.roll = some "1d9" ∧ IsLeast (covered t.outcomes) (-2) ∧
      t.gaps = [-1, 0, 1, 2, 5, 6] ∧
      ∀ roll s, (resolve { t with roll := roll } (some 6)).run s = some (.ok "bats", s) := by
  have hread : readOutcomes [("7-9", "a dragon"), ("-2", "a trap"), ("5-2", "nothing"), ("3-4", "bats")] =
      .ok [(⟨7, 9⟩, "a dragon"), (⟨-2, -2⟩, "a trap"), (⟨5, 2⟩, "nothing"), (⟨3, 4⟩, "bats")] := by
    decide +kernel
  have hsort : ofOutcomes none [(⟨7, 9⟩, "a dragon"), (⟨-2, -2⟩, "a trap"), (⟨5, 2⟩, "nothing"), (⟨3, 4⟩, "bats")] =
      expand ⟨none, [(⟨-2, -2⟩, "a trap"), (⟨3, 4⟩, "bats"), (⟨5, 2⟩, "nothing"), (⟨7, 9⟩, "a dragon")], []⟩ :=
    ofOutcomes_eq (by decide) (by unfold Ordered; decide) (by decide)
  have hbuilt := ofPairs_eq_ok.mpr ⟨_, hread, hsort⟩
  have hcovered : (covered [((⟨-2, -2⟩ : Key), "a trap"), (⟨3, 4⟩, "bats"), (⟨5, 2⟩, "nothing"),
      (⟨7, 9⟩, "a dragon")]).Nonempty :=
    ⟨-2, _, List.mem_cons_self, by decide⟩
  obtain ⟨hlowest, -, -, -, -, hanswers⟩ := resolve_built (.ofPairs hbuilt)
  obtain ⟨low, high, -, -, hanswers, -⟩ := hanswers hcovered
  obtain ⟨nearest, outcome, -, -, hrun⟩ := hanswers 6
  -- What the answer is shows at any one source.
  have hbats := hrun none (.ofStream (fun _ => 0) 0)
  cases hbats
  exact ⟨_, hbuilt, hcovered, by decide, (hlowest (-2)).mp (by decide), by decide, hrun⟩

end Tabletop.Table
