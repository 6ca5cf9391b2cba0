import Mathlib.Algebra.GroupWithZero.Nat
import Mathlib.Algebra.Order.BigOperators.Group.List
import Mathlib.Algebra.Order.Group.Nat
import Mathlib.Algebra.Ring.Int.Defs
import Tabletop.Dice.Roll
import Tabletop.Proofs.Random.Face

/-!
# What a roll comes to

A roll takes faces until enough of them have not exploded, and no further. Their sum is held within 64 bits at
every step, which comes to the same as holding the whole of it, and its result is a count of 32 bits.
-/

namespace Tabletop.Dice

open Tabletop.Random

variable {d : Dice} {s s' : Source} {faces rest : List Nat} {face n wanted : Nat} {p : Nat → Bool}

/-! ## The shortest front that holds enough -/

/-- So many of the faces pass a test, and of no shorter front of them. -/
def Shortest (p : Nat → Bool) (wanted : Nat) (faces : List Nat) : Prop :=
  wanted ≤ faces.countP p ∧ ∀ front, front <+: faces → wanted ≤ front.countP p → front = faces

theorem shortest_zero_iff : Shortest p 0 faces ↔ faces = [] := by
  unfold Shortest
  constructor
  · rintro ⟨-, hfront⟩
    exact (hfront [] List.nil_prefix (Nat.zero_le _)).symm
  · rintro rfl
    exact ⟨Nat.zero_le _, fun front hfront _ => List.prefix_nil.mp hfront⟩

theorem not_shortest_nil : ¬ Shortest p (wanted + 1) [] := by
  rintro ⟨hcount, -⟩
  simp at hcount

theorem shortest_cons_iff :
    Shortest p (wanted + 1) (face :: rest) ↔ Shortest p (if p face then wanted else wanted + 1) rest := by
  have hcount (faces : List Nat) : wanted + 1 ≤ (face :: faces).countP p ↔
      (if p face then wanted else wanted + 1) ≤ faces.countP p := by
    rw [List.countP_cons]
    split <;> omega
  unfold Shortest
  rw [hcount]
  apply and_congr_right
  intro _
  constructor
  · intro h front hfront hfull
    have heq := h (face :: front) ((List.prefix_cons_inj face).mpr hfront) ((hcount front).mpr hfull)
    exact (List.cons.inj heq).2
  · intro h front hfront hfull
    rcases List.prefix_cons_iff.mp hfront with rfl | ⟨tail, rfl, htail⟩
    · simp at hfull
    · rw [h tail htail ((hcount tail).mp hfull)]

theorem exists_shortest (h : wanted ≤ faces.countP p) : ∃ front, front <+: faces ∧ Shortest p wanted front := by
  induction faces generalizing wanted with
  | nil =>
    obtain rfl : wanted = 0 := by simpa using h
    exact ⟨[], List.nil_prefix, shortest_zero_iff.mpr rfl⟩
  | cons face rest ih =>
    cases wanted with
    | zero => exact ⟨[], List.nil_prefix, shortest_zero_iff.mpr rfl⟩
    | succ wanted =>
      have hrest : (if p face then wanted else wanted + 1) ≤ rest.countP p := by
        rw [List.countP_cons] at h
        split at h <;> simp_all
      obtain ⟨front, hfront, hshortest⟩ := ih hrest
      exact ⟨face :: front, (List.prefix_cons_inj face).mpr hfront, shortest_cons_iff.mpr hshortest⟩

theorem shortest_true_iff : Shortest (fun _ => true) wanted faces ↔ faces.length = wanted := by
  induction faces generalizing wanted with
  | nil => cases wanted <;> simp [shortest_zero_iff, not_shortest_nil]
  | cons face rest ih => cases wanted <;> simp [shortest_zero_iff, shortest_cons_iff, ih]

/-! ## The faces of a roll -/

theorem run_facesFrom_zero (tries : Nat) (seen result : List Nat) :
    (d.facesFrom tries 0 seen).run s = some (result, s') ↔
      ∃ faces, Falls d.sides s faces s' ∧ Shortest p 0 faces ∧ result = faces.reverse ++ seen := by
  have hrun : (d.facesFrom tries 0 seen).run s = some (seen, s) := by cases tries <;> rfl
  simp [hrun, shortest_zero_iff, falls_nil_iff, eq_comm, and_comm]

theorem run_facesFrom (hsides : 0 < d.sides) {tries : Nat} (htries : s.supply ≤ tries) (seen result : List Nat) :
    (d.facesFrom tries wanted seen).run s = some (result, s') ↔
      ∃ faces, Falls d.sides s faces s' ∧ Shortest (fun face => !d.explodes face) wanted faces ∧
        result = faces.reverse ++ seen := by
  induction tries generalizing s wanted seen with
  | zero =>
    cases wanted with
    | zero => exact run_facesFrom_zero 0 seen result
    | succ wanted =>
      constructor
      · rintro ⟨⟩
      · rintro ⟨faces, hfalls, hshortest, -⟩
        cases hfalls with
        | nil => exact absurd hshortest not_shortest_nil
        | cons hface _ =>
          obtain ⟨-, -, hless⟩ := face_eq_some hsides hface
          omega
  | succ tries ih =>
    cases wanted with
    | zero => exact run_facesFrom_zero (tries + 1) seen result
    | succ wanted =>
      have hwanted (face : Nat) : (if d.explodes face then wanted + 1 else wanted) =
          if !d.explodes face then wanted else wanted + 1 := by
        cases d.explodes face <;> rfl
      unfold facesFrom
      rw [StateT.run_bind]
      simp only [Option.bind_eq_bind, Option.bind_eq_some_iff, Prod.exists, hwanted]
      constructor
      · rintro ⟨face, t, hface, hrest⟩
        obtain ⟨-, -, hless⟩ := face_eq_some hsides hface
        obtain ⟨rest, hfalls, hshortest, rfl⟩ := (ih (by omega) _).mp hrest
        exact ⟨face :: rest, .cons hface hfalls, shortest_cons_iff.mpr hshortest, by simp⟩
      · rintro ⟨faces, hfalls, hshortest, rfl⟩
        cases hfalls with
        | nil => exact absurd hshortest not_shortest_nil
        | @cons _ t _ face rest hface hrest =>
          obtain ⟨-, -, hless⟩ := face_eq_some hsides hface
          exact ⟨face, t, hface, (ih (by omega) _).mpr ⟨rest, hrest, shortest_cons_iff.mp hshortest, by simp⟩⟩

/-! ## The sum -/

theorem foldl_held {sum : Int} (hsum : 0 ≤ sum) (hle : sum ≤ 0x7FFFFFFFFFFFFFFF) :
    faces.foldl (fun (sum : Int) (face : Nat) => held (sum + face)) sum =
      min (sum + (faces.sum : Nat)) 0x7FFFFFFFFFFFFFFF := by
  induction faces generalizing sum with
  | nil => simp [hle]
  | cons face rest ih =>
    have hheld : held (sum + face) = min (sum + face) 0x7FFFFFFFFFFFFFFF := by
      unfold held clamp
      omega
    rw [List.foldl_cons, hheld, ih (by omega) (by omega), List.sum_cons]
    omega

theorem total_eq (d : Dice) (faces : List Nat) :
    (d.total faces : Int) =
      clamp 0 0xFFFFFFFF (min ((faces.sum : Nat) : Int) 0x7FFFFFFFFFFFFFFF + d.modifier) := by
  unfold total
  rw [foldl_held le_rfl (by decide), zero_add]
  dsimp only
  unfold held clamp
  omega

theorem run_faces (hsides : 0 < d.sides) :
    d.faces.run s = some (faces, s') ↔
      Falls d.sides s faces s' ∧ Shortest (fun face => !d.explodes face) d.count faces := by
  have hrun : d.faces.run s =
      ((d.facesFrom s.supply d.count []).run s).bind fun (shown, t) => some (shown.reverse, t) := rfl
  rw [hrun, Option.bind_eq_some_iff]
  constructor
  · rintro ⟨⟨shown, t⟩, hshown, heq⟩
    cases heq
    obtain ⟨faces, hfalls, hshortest, rfl⟩ := (run_facesFrom hsides le_rfl _ _).mp hshown
    rw [List.append_nil, List.reverse_reverse]
    exact ⟨hfalls, hshortest⟩
  · rintro ⟨hfalls, hshortest⟩
    refine ⟨(faces.reverse ++ [], s'), (run_facesFrom hsides le_rfl _ _).mpr ⟨faces, hfalls, hshortest, rfl⟩, ?_⟩
    simp

theorem run_roll_eq (d : Dice) (s : Source) :
    d.roll.run s = (d.faces.run s).map fun (faces, t) => (d.total faces, t) := by
  unfold roll
  rw [StateT.run_bind]
  cases d.faces.run s <;> rfl

theorem run_roll (hsides : 0 < d.sides) :
    d.roll.run s = some (n, s') ↔
      ∃ faces, Falls d.sides s faces s' ∧ Shortest (fun face => !d.explodes face) d.count faces ∧
        n = d.total faces := by
  rw [run_roll_eq, Option.map_eq_some_iff]
  constructor
  · rintro ⟨⟨faces, t⟩, hfaces, heq⟩
    cases heq
    obtain ⟨hfalls, hshortest⟩ := (run_faces hsides).mp hfaces
    exact ⟨faces, hfalls, hshortest, rfl⟩
  · rintro ⟨faces, hfalls, hshortest, rfl⟩
    exact ⟨(faces, s'), (run_faces hsides).mpr ⟨hfalls, hshortest⟩, rfl⟩

/-! ## Bounds -/

theorem total_le (d : Dice) (faces : List Nat) : d.total faces ≤ 0xFFFFFFFF := by
  unfold total clamp
  dsimp only
  omega

theorem le_of_run_roll (h : d.roll.run s = some (n, s')) : n ≤ 0xFFFFFFFF := by
  rw [run_roll_eq] at h
  obtain ⟨⟨faces, t⟩, -, heq⟩ := Option.map_eq_some_iff.mp h
  cases heq
  exact total_le d faces

theorem Shortest.length_eq (h : Shortest p wanted faces) (hall : ∀ face, p face = true) : faces.length = wanted := by
  rw [← shortest_true_iff]
  rwa [show p = fun _ => true from funext hall] at h

theorem clamp_mono {low high a b : Int} (h : a ≤ b) : clamp low high a ≤ clamp low high b := by
  unfold clamp
  omega

theorem clamp_le_total (hcount : d.count < 0x100000000) (hshortest : Shortest p d.count faces)
    (hfaces : ∀ face ∈ faces, 1 ≤ face) : clamp 0 0xFFFFFFFF (d.count + d.modifier) ≤ d.total faces := by
  have hlength : d.count ≤ faces.length := le_trans hshortest.1 List.countP_le_length
  have hsum : faces.length ≤ faces.sum := by
    simpa using List.card_nsmul_le_sum faces 1 hfaces
  rw [total_eq]
  apply clamp_mono
  omega

theorem total_le_clamp (hlength : faces.length = d.count) (hfaces : ∀ face ∈ faces, face ≤ d.sides) :
    (d.total faces : Int) ≤ clamp 0 0xFFFFFFFF ((d.count * d.sides : Nat) + d.modifier) := by
  have hsum : faces.sum ≤ d.count * d.sides := by
    simpa [hlength] using List.sum_le_card_nsmul faces d.sides hfaces
  rw [total_eq]
  apply clamp_mono
  omega

/-! ## The meaning of a roll -/

theorem explodes_of_plain (h : d.exploding = false ∨ d.sides = 1) (face : Nat) : d.explodes face = false := by
  unfold explodes
  rcases h with h | h <;> simp [h]

theorem explodes_of_exploding (hsides : 0 < d.sides) (hexploding : d.exploding = true) (hone : d.sides ≠ 1)
    (face : Nat) : (!d.explodes face) = decide (face ≠ d.sides) := by
  have hlt : 1 < d.sides := by omega
  simp [explodes, hexploding, hlt]

/--
Dice that do not explode, or cannot, take one face each. Others take faces until so many are not the highest. The sum is
cut off at 64 bits and then at 32. Any sequence of faces may fall.
-/
theorem roll_of_falls (h : d.InRange) :
    (d.exploding = false ∨ d.sides = 1 → ∀ s n s', d.roll.run s = some (n, s') ↔
      ∃ faces, Falls d.sides s faces s' ∧ faces.length = d.count ∧
        (n : Int) = clamp 0 0xFFFFFFFF (min ((faces.sum : Nat) : Int) 0x7FFFFFFFFFFFFFFF + d.modifier)) ∧
    (d.exploding = true → d.sides ≠ 1 →
      (∀ s n s', d.roll.run s = some (n, s') ↔
        ∃ faces, Falls d.sides s faces s' ∧ Shortest (fun face => face ≠ d.sides) d.count faces ∧
          (n : Int) = clamp 0 0xFFFFFFFF (min ((faces.sum : Nat) : Int) 0x7FFFFFFFFFFFFFFF + d.modifier)) ∧
      ∀ s, (∃ n s', d.roll.run s = some (n, s')) ↔
        ∃ faces s', Falls d.sides s faces s' ∧ d.count ≤ faces.countP fun face => face ≠ d.sides) ∧
    (∀ s n s', d.roll.run s = some (n, s') →
      clamp 0 0xFFFFFFFF (d.count + d.modifier) ≤ n ∧
      (d.exploding = false → (n : Int) ≤ clamp 0 0xFFFFFFFF ((d.count * d.sides : Nat) + d.modifier))) ∧
    (∀ s faces s', Falls d.sides s faces s' → ∀ face ∈ faces, 1 ≤ face ∧ face ≤ d.sides) ∧
    ∀ sequence : Nat → Nat, (∀ i, 1 ≤ sequence i ∧ sequence i ≤ d.sides) →
      ∃ word : Nat → UInt32, ∀ n extra,
        Falls d.sides ⟨word, 0, n + extra⟩ ((List.range n).map sequence) ⟨word, n, extra⟩ := by
  have hpos := h.sides_pos
  refine ⟨fun hplain s n s' => ?_, fun hexploding hone => ⟨fun s n s' => ?_, fun s => ?_⟩, fun s n s' hrun => ?_,
    fun s faces s' hfalls => hfalls.bounds hpos, fun sequence hsequence => ?_⟩
  · simp only [run_roll hpos, explodes_of_plain hplain, Bool.not_false, shortest_true_iff, ← total_eq,
      Int.ofNat_inj]
  · simp only [run_roll hpos, explodes_of_exploding hpos hexploding hone, ← total_eq, Int.ofNat_inj]
  · simp only [run_roll hpos, explodes_of_exploding hpos hexploding hone]
    constructor
    · rintro ⟨-, s', faces, hfalls, hshortest, -⟩
      exact ⟨faces, s', hfalls, hshortest.1⟩
    · rintro ⟨faces, s', hfalls, hcount⟩
      obtain ⟨front, ⟨rest, rfl⟩, hshortest⟩ := exists_shortest hcount
      obtain ⟨t, hfront⟩ := hfalls.of_append
      exact ⟨_, t, front, hfront, hshortest, rfl⟩
  · obtain ⟨faces, hfalls, hshortest, rfl⟩ := (run_roll hpos).mp hrun
    have hbounds := hfalls.bounds hpos
    refine ⟨clamp_le_total h.count_lt hshortest fun face hface => (hbounds face hface).1, fun hplain => ?_⟩
    have hlength := hshortest.length_eq fun face => by rw [explodes_of_plain (.inl hplain)]; rfl
    exact total_le_clamp hlength fun face hface => (hbounds face hface).2
  · obtain ⟨word, hword⟩ := exists_falls h.sides_lt sequence hsequence
    refine ⟨word, fun n extra => ?_⟩
    have := hword 0 n extra
    rwa [Nat.zero_add, ← List.range_eq_range'] at this

theorem roll_of_falls_sixes :
    (Dice.mk 2 6 true (-3)).InRange ∧ (Dice.mk 2 6 false (-3)).InRange ∧ ∃ word : Nat → UInt32,
      (Dice.mk 2 6 true (-3)).roll.run ⟨word, 0, 4⟩ = some (16, ⟨word, 4, 0⟩) ∧
      (Dice.mk 2 6 false (-3)).roll.run ⟨word, 0, 4⟩ = some (9, ⟨word, 2, 2⟩) ∧
      clamp 0 0xFFFFFFFF ((2 : Nat) + -3) ≤ (9 : Nat) ∧ (9 : Nat) ≤ clamp 0 0xFFFFFFFF ((2 * 6 : Nat) + -3) := by
  have hexploding : (Dice.mk 2 6 true (-3)).InRange := ⟨by decide, by decide, by decide, by decide, by decide⟩
  have hplain : (Dice.mk 2 6 false (-3)).InRange := ⟨by decide, by decide, by decide, by decide, by decide⟩
  have hfaces (i : Nat) : 1 ≤ [6, 6, 2, 5].getD i 1 ∧ [6, 6, 2, 5].getD i 1 ≤ 6 := by
    rcases i with _ | _ | _ | _ | i <;> simp
  obtain ⟨-, hfour, -, -, hsequences⟩ := roll_of_falls hexploding
  obtain ⟨htwo, -, hbounds, -⟩ := roll_of_falls hplain
  obtain ⟨word, hword⟩ := hsequences _ hfaces
  have hrun : (Dice.mk 2 6 false (-3)).roll.run ⟨word, 0, 4⟩ = some (9, ⟨word, 2, 2⟩) :=
    (htwo (.inl rfl) _ _ _).mpr ⟨[6, 6], hword 2 2, rfl, by decide⟩
  obtain ⟨hlow, hhigh⟩ := hbounds _ _ _ hrun
  refine ⟨hexploding, hplain, word, ?_, hrun, hlow, hhigh rfl⟩
  apply ((hfour rfl (by decide)).1 _ _ _).mpr
  exact ⟨[6, 6, 2, 5], hword 4 0, by simp [shortest_cons_iff, shortest_zero_iff], by decide⟩

end Tabletop.Dice
