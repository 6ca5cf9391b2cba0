import Mathlib.Algebra.Group.Nat.Defs
import Tabletop.Random.Uniform

/-!
# Faces

A die that is rolled again and again shows one face after another, each from one to its number of sides. Every
sequence of such faces is shown on some stream of words.
-/

namespace Tabletop.Random

variable {α β : Type} {s s' t : Source} {sides face : Nat} {faces more : List Nat}

/-! ## Draws that are accepted -/

namespace Draw

variable {draw : Draw α} {accept? : α → Option β} {P : β → Prop}

theorem supply_word {w : UInt32} (h : word.run s = some (w, t)) : t.supply < s.supply := by
  change s.next? = some (w, t) at h
  unfold Source.next? at h
  split at h
  · cases h
  next hsupply =>
    cases h
    simp [hsupply]

theorem run_number_one (s : Source) : (number 1).run s = (word.run s).map fun (w, t) => (w.toNat, t) := by
  simp only [number, StateT.run_bind, StateT.run_pure]
  cases word.run s <;> rfl

theorem number_one_eq_some {n : Nat} (h : (number 1).run s = some (n, t)) : n < 2 ^ 32 ∧ t.supply < s.supply := by
  rw [run_number_one] at h
  obtain ⟨⟨w, u⟩, hword, hpair⟩ := Option.map_eq_some_iff.mp h
  cases hpair
  exact ⟨w.toNat_lt, supply_word hword⟩

theorem firstAccepted_eq_some (hdraw : ∀ s a t, draw.run s = some (a, t) → t.supply < s.supply)
    (hP : ∀ s a t b, draw.run s = some (a, t) → accept? a = some b → P b) {tries : Nat} {b : β}
    (h : (firstAccepted draw accept? tries).run s = some (b, t)) : P b ∧ t.supply < s.supply := by
  induction tries generalizing s with
  | zero => cases h
  | succ tries ih =>
    unfold firstAccepted at h
    rw [StateT.run_bind] at h
    obtain ⟨⟨a, u⟩, ha, h⟩ := Option.bind_eq_some_iff.mp h
    have hlt := hdraw s a u ha
    cases haccept : accept? a with
    | some b' =>
      simp only [haccept] at h
      cases h
      exact ⟨hP s a t b ha haccept, hlt⟩
    | none =>
      simp only [haccept] at h
      obtain ⟨hb, hless⟩ := ih h
      exact ⟨hb, by omega⟩

theorem run_below_of_accepted {words size drawn n : Nat} (hsupply : s.supply ≠ 0)
    (hnumber : (number words).run s = some (drawn, t)) (hkept : scaled? (32 * words) size drawn = some n) :
    (below words size).run s = some (n, t) := by
  obtain ⟨tries, htries⟩ := Nat.exists_eq_succ_of_ne_zero hsupply
  change (firstAccepted (number words) (scaled? (32 * words) size) s.supply).run s = _
  simp only [htries, firstAccepted, StateT.run_bind, hnumber, Option.bind_eq_bind, Option.bind_some, hkept,
    StateT.run_pure]
  rfl

end Draw

theorem scaled?_lt {bits size drawn n : Nat} (hdrawn : drawn < 2 ^ bits) (hsize : 0 < size)
    (h : scaled? bits size drawn = some n) : n < size := by
  unfold scaled? at h
  split at h
  · cases h
    rw [Nat.shiftRight_eq_div_pow]
    apply Nat.div_lt_of_lt_mul
    exact Nat.mul_lt_mul_of_pos_right hdrawn hsize
  · cases h

/-! ## One face -/

theorem face_eq_some (hsides : 0 < sides) (h : (Draw.face sides).run s = some (face, t)) :
    1 ≤ face ∧ face ≤ sides ∧ t.supply < s.supply := by
  unfold Draw.face at h
  rw [StateT.run_bind] at h
  obtain ⟨⟨n, u⟩, hbelow, h⟩ := Option.bind_eq_some_iff.mp h
  cases h
  obtain ⟨hlt, hless⟩ := Draw.firstAccepted_eq_some (P := (· < sides))
    (fun _ _ _ hrun => (Draw.number_one_eq_some hrun).2)
    (fun _ _ _ _ hrun => scaled?_lt (Draw.number_one_eq_some hrun).1 hsides) hbelow
  exact ⟨by omega, by omega, hless⟩

theorem le_zone (bits size : Nat) : size - 1 ≤ zone bits size := by
  unfold zone
  apply Nat.sub_le_sub_right
  rw [Nat.shiftLeft_eq]
  exact Nat.le_mul_of_pos_right size (Nat.two_pow_pos _)

/-- A number of 32 bits that is scaled to a face, counted from zero: the least that reaches it. -/
def wordFor (sides face : Nat) : Nat := ((face - 1) * 2 ^ 32 + (sides - 1)) / sides

section WordFor

variable (hface : 1 ≤ face) (hle : face ≤ sides) (hsides : sides < 2 ^ 32)
include hface hle hsides

theorem exists_wordFor_mul : ∃ excess < sides, wordFor sides face * sides = (face - 1) * 2 ^ 32 + excess := by
  have hpos : 0 < sides := by omega
  have hdiv := Nat.div_add_mod' ((face - 1) * 2 ^ 32 + (sides - 1)) sides
  have hmod := Nat.mod_lt ((face - 1) * 2 ^ 32 + (sides - 1)) hpos
  change wordFor sides face * sides + _ = _ at hdiv
  refine ⟨wordFor sides face * sides - (face - 1) * 2 ^ 32, ?_, ?_⟩ <;> omega

theorem wordFor_lt : wordFor sides face < 2 ^ 32 := by
  obtain ⟨excess, hexcess, hmul⟩ := exists_wordFor_mul hface hle hsides
  apply Nat.lt_of_mul_lt_mul_right (a := sides)
  have hfaces : (face - 1) * 2 ^ 32 + 2 ^ 32 ≤ 2 ^ 32 * sides := by
    rw [← Nat.succ_mul, Nat.mul_comm]
    apply Nat.mul_le_mul_left
    omega
  omega

theorem scaled?_wordFor : scaled? 32 sides (wordFor sides face) = some (face - 1) := by
  obtain ⟨excess, hexcess, hmul⟩ := exists_wordFor_mul hface hle hsides
  have hzone := le_zone 32 sides
  unfold scaled?
  rw [hmul, Nat.one_shiftLeft, Nat.shiftRight_eq_div_pow, if_pos (by omega)]
  congr 1
  omega

theorem run_face_wordFor {word : Nat → UInt32} {drawn : Nat}
    (hword : word drawn = UInt32.ofNat (wordFor sides face)) (supply : Nat) :
    (Draw.face sides).run ⟨word, drawn, supply + 1⟩ = some (face, ⟨word, drawn + 1, supply⟩) := by
  have hnumber : (Draw.number 1).run ⟨word, drawn, supply + 1⟩ =
      some (wordFor sides face, ⟨word, drawn + 1, supply⟩) := by
    rw [Draw.run_number_one]
    change some ((word drawn).toNat, _) = _
    rw [hword, UInt32.toNat_ofNat_of_lt' (wordFor_lt hface hle hsides)]
  have hbelow : (Draw.below 1 sides).run ⟨word, drawn, supply + 1⟩ = some (face - 1, ⟨word, drawn + 1, supply⟩) :=
    Draw.run_below_of_accepted (Nat.succ_ne_zero supply) hnumber (scaled?_wordFor hface hle hsides)
  unfold Draw.face
  rw [StateT.run_bind, hbelow]
  change some (1 + (face - 1), _) = _
  rw [Nat.add_sub_cancel' hface]

end WordFor

/-! ## One face after another -/

/-- The faces that a die shows from a source on, and the source that they leave. -/
inductive Falls (sides : Nat) : Source → List Nat → Source → Prop where
  | nil {s : Source} : Falls sides s [] s
  | cons {s t s' : Source} {face : Nat} {faces : List Nat} :
      (Draw.face sides).run s = some (face, t) → Falls sides t faces s' → Falls sides s (face :: faces) s'

theorem falls_nil_iff : Falls sides s [] s' ↔ s' = s := by
  constructor
  · rintro ⟨⟩
    rfl
  · rintro rfl
    exact .nil

theorem falls_cons_iff :
    Falls sides s (face :: faces) s' ↔
      ∃ t, (Draw.face sides).run s = some (face, t) ∧ Falls sides t faces s' := by
  constructor
  · rintro (_ | ⟨hface, hfaces⟩)
    exact ⟨_, hface, hfaces⟩
  · rintro ⟨t, hface, hfaces⟩
    exact .cons hface hfaces

theorem Falls.bounds (h : Falls sides s faces s') (hsides : 0 < sides) : ∀ face ∈ faces, 1 ≤ face ∧ face ≤ sides := by
  induction h with
  | nil => simp
  | cons hface _ ih =>
    obtain ⟨hle, hge, -⟩ := face_eq_some hsides hface
    exact List.forall_mem_cons.mpr ⟨⟨hle, hge⟩, ih⟩

theorem Falls.of_append (h : Falls sides s (faces ++ more) s') : ∃ t, Falls sides s faces t := by
  induction faces generalizing s with
  | nil => exact ⟨s, .nil⟩
  | cons face faces ih =>
    obtain ⟨t, hface, hmore⟩ := falls_cons_iff.mp h
    obtain ⟨u, hfaces⟩ := ih hmore
    exact ⟨u, .cons hface hfaces⟩

/-- On some stream, each word is worth the next face of any sequence. -/
theorem exists_falls (hsides : sides < 2 ^ 32) (sequence : Nat → Nat)
    (h : ∀ i, 1 ≤ sequence i ∧ sequence i ≤ sides) :
    ∃ word : Nat → UInt32, ∀ drawn n extra,
      Falls sides ⟨word, drawn, n + extra⟩ ((List.range' drawn n).map sequence) ⟨word, drawn + n, extra⟩ := by
  refine ⟨fun i => UInt32.ofNat (wordFor sides (sequence i)), fun drawn n extra => ?_⟩
  induction n generalizing drawn with
  | zero =>
    rw [Nat.zero_add]
    exact .nil
  | succ n ih =>
    have hplace : drawn + (n + 1) = drawn + 1 + n := by omega
    rw [List.range'_succ, List.map_cons, Nat.add_right_comm, hplace]
    obtain ⟨hface, hle⟩ := h drawn
    refine .cons (run_face_wordFor hface hle hsides ?_ (n + extra)) (ih (drawn + 1))
    rfl

end Tabletop.Random
