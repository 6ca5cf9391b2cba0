import Tabletop.Dice.Roll
import Tabletop.Proofs.Random.Face
import Tabletop.Proofs.Random.Run

/-!
# Supply

A draw that comes to an end takes some words of the stream. With fewer it has no result, and what there
is beyond them is left over.
-/

namespace Tabletop.Random

variable {ε ε' α β : Type} {word : Nat → UInt32}

/-! ## Draws -/

/-- From every place of the stream, the draw takes so many words and comes to a value. -/
def Draw.Completes (word : Nat → UInt32) (d : Draw α) : Prop :=
  ∀ drawn, ∃ need a drawn', ∀ extra,
    d.run ⟨word, drawn, need + extra⟩ = some (a, ⟨word, drawn', extra⟩)

/-- No roll goes on forever on the stream, wherever it begins: neither of dice nor within a range. -/
structure Lively (word : Nat → UInt32) : Prop where
  roll : ∀ d : Dice, d.roll.Completes word
  between : ∀ low high, (Draw.between low high).Completes word

/-! ## Rolls -/

namespace Roll

def Completes (word : Nat → UInt32) (r : Roll ε α) : Prop :=
  ∀ drawn, ∃ need result drawn', ∀ extra,
    r.run ⟨word, drawn, need + extra⟩ = some (result, ⟨word, drawn', extra⟩)

theorem completes_of_run {r : Roll ε α} (result : Except ε α) (h : ∀ s, r.run s = some (result, s)) :
    r.Completes word := by
  intro drawn
  refine ⟨0, result, drawn, fun extra => ?_⟩
  rw [h, Nat.zero_add]

theorem completes_pure (a : α) : (pure a : Roll ε α).Completes word :=
  completes_of_run (.ok a) fun _ => rfl

theorem completes_throw (e : ε) : (throw e : Roll ε α).Completes word :=
  completes_of_run (.error e) fun _ => rfl

theorem completes_liftM {d : Draw α} (h : d.Completes word) : (liftM d : Roll ε α).Completes word := by
  intro drawn
  obtain ⟨need, a, drawn', h⟩ := h drawn
  refine ⟨need, .ok a, drawn', fun extra => ?_⟩
  rw [run_liftM, h]
  rfl

theorem completes_bind_of_reaches {r : Roll ε α} {f : α → Roll ε β} (hr : r.Completes word)
    (hf : ∀ a, r.Reaches a → (f a).Completes word) : (r >>= f).Completes word := by
  intro drawn
  obtain ⟨need, result, drawn', hr⟩ := hr drawn
  cases result with
  | error e =>
    refine ⟨need, .error e, drawn', fun extra => ?_⟩
    rw [run_bind, hr]
    rfl
  | ok a =>
    -- The second part starts where the first one stops, and what it needs was left over.
    obtain ⟨more, result, drawn'', hf⟩ := hf a ⟨_, _, hr 0⟩ drawn'
    refine ⟨need + more, result, drawn'', fun extra => ?_⟩
    rw [run_bind, Nat.add_assoc, hr]
    exact hf extra

theorem completes_bind {r : Roll ε α} {f : α → Roll ε β} (hr : r.Completes word)
    (hf : ∀ a, (f a).Completes word) : (r >>= f).Completes word :=
  completes_bind_of_reaches hr fun a _ => hf a

theorem completes_adapt {f : ε → ε'} {r : Roll ε α} (hr : r.Completes word) :
    Completes word (r.adapt f) := by
  intro drawn
  obtain ⟨need, result, drawn', hr⟩ := hr drawn
  refine ⟨need, result.mapError f, drawn', fun extra => ?_⟩
  rw [run_adapt, hr]
  rfl

end Roll

/-! ## Numbers -/

/-- The number that the words from a place on make, the low one first. -/
def numberAt (word : Nat → UInt32) : (words place : Nat) → Nat
  | 0, _ => 0
  | words + 1, place => (word place).toNat + 0x100000000 * numberAt word words (place + 1)

theorem run_number (words drawn extra : Nat) :
    (Draw.number words).run ⟨word, drawn, words + extra⟩ =
      some (numberAt word words drawn, ⟨word, drawn + words, extra⟩) := by
  induction words generalizing drawn with
  | zero => simp [Draw.number, numberAt]
  | succ words ih =>
    have hword : Draw.word.run ⟨word, drawn, words + 1 + extra⟩ =
        some (word drawn, ⟨word, drawn + 1, words + extra⟩) := by
      rw [Nat.add_right_comm]
      rfl
    have hplace : drawn + 1 + words = drawn + (words + 1) := by omega
    simp only [Draw.number, StateT.run_bind, hword, Option.bind_eq_bind, Option.bind_some, ih,
      StateT.run_pure, hplace]
    rfl

theorem scaled?_zero (bits size : Nat) : scaled? bits size 0 = some 0 := by simp [scaled?]

theorem run_firstAccepted {words drawn : Nat} {accept? : Nat → Option β} (tries extra : Nat) :
    (Draw.firstAccepted (Draw.number words) accept? (tries + 1)).run ⟨word, drawn, words + extra⟩ =
      match accept? (numberAt word words drawn) with
      | some b => some (b, ⟨word, drawn + words, extra⟩)
      | none => (Draw.firstAccepted (Draw.number words) accept? tries).run ⟨word, drawn + words, extra⟩ := by
  rw [Draw.firstAccepted, StateT.run_bind, run_number]
  simp only [Option.bind_eq_bind, Option.bind_some]
  cases accept? (numberAt word words drawn) <;> rfl

/-! ## Streams that rest -/

section Zeros

variable {words distance drawn : Nat}

theorem exists_run_firstAccepted (bits size : Nat)
    (hzero : numberAt word words (drawn + words * distance) = 0) :
    ∃ rejected n, rejected ≤ distance ∧ (rejected = distance → n = 0) ∧ ∀ tries extra,
      (Draw.firstAccepted (Draw.number words) (scaled? bits size) (tries + rejected + 1)).run
        ⟨word, drawn, words * (rejected + 1) + extra⟩ = some (n, ⟨word, drawn + words * (rejected + 1), extra⟩) := by
  induction distance generalizing drawn with
  | zero =>
    refine ⟨0, 0, Nat.le_refl 0, fun _ => rfl, fun tries extra => ?_⟩
    rw [Nat.mul_zero, Nat.add_zero] at hzero
    rw [Nat.add_zero, Nat.zero_add, Nat.mul_one, run_firstAccepted, hzero, scaled?_zero]
  | succ distance ih =>
    cases hkept : scaled? bits size (numberAt word words drawn) with
    | some n =>
      refine ⟨0, n, Nat.zero_le _, fun h => absurd h (Nat.succ_ne_zero distance).symm, fun tries extra => ?_⟩
      rw [Nat.add_zero, Nat.zero_add, Nat.mul_one, run_firstAccepted, hkept]
    | none =>
      have hnext : drawn + words * (distance + 1) = drawn + words + words * distance := by
        rw [Nat.mul_succ, Nat.add_assoc, Nat.add_comm words]
      obtain ⟨rejected, n, hle, hlast, hrun⟩ := ih (hnext ▸ hzero)
      refine ⟨rejected + 1, n, Nat.succ_le_succ hle, fun h => hlast (Nat.succ.inj h), fun tries extra => ?_⟩
      have hneed : words * (rejected + 1 + 1) + extra = words + (words * (rejected + 1) + extra) := by
        rw [Nat.mul_succ, Nat.add_right_comm, Nat.add_comm]
      have hplace : drawn + words * (rejected + 1 + 1) = drawn + words + words * (rejected + 1) := by
        rw [Nat.mul_succ, Nat.add_assoc, Nat.add_comm words]
      rw [hneed, hplace, ← Nat.add_assoc tries, run_firstAccepted, hkept]
      exact hrun tries extra

theorem exists_run_below (hwords : 0 < words) (size : Nat)
    (hzero : numberAt word words (drawn + words * distance) = 0) :
    ∃ rejected n, rejected ≤ distance ∧ (rejected = distance → n = 0) ∧ ∀ extra,
      (Draw.below words size).run ⟨word, drawn, words * (rejected + 1) + extra⟩ =
        some (n, ⟨word, drawn + words * (rejected + 1), extra⟩) := by
  obtain ⟨rejected, n, hle, hlast, hrun⟩ := exists_run_firstAccepted (32 * words) size hzero
  refine ⟨rejected, n, hle, hlast, fun extra => ?_⟩
  -- Each try takes a word at least, so there are more words than tries.
  obtain ⟨tries, htries⟩ : ∃ tries, words * (rejected + 1) + extra = tries + rejected + 1 := by
    have hle := Nat.le_mul_of_pos_left (rejected + 1) hwords
    exact ⟨words * (rejected + 1) + extra - (rejected + 1), by omega⟩
  have hbelow := hrun tries extra
  rw [← htries] at hbelow
  exact hbelow

theorem exists_run_face (sides : Nat) (hzero : word (drawn + distance) = 0) :
    ∃ rejected face, rejected ≤ distance ∧ (rejected = distance → face = 1) ∧ ∀ extra,
      (Draw.face sides).run ⟨word, drawn, rejected + 1 + extra⟩ = some (face, ⟨word, drawn + (rejected + 1), extra⟩) := by
  have hnumber : numberAt word 1 (drawn + 1 * distance) = 0 := by simp [numberAt, hzero]
  obtain ⟨rejected, n, hle, hlast, hrun⟩ := exists_run_below Nat.one_pos sides hnumber
  refine ⟨rejected, 1 + n, hle, fun h => by rw [hlast h], fun extra => ?_⟩
  have hbelow := hrun extra
  rw [Nat.one_mul] at hbelow
  rw [Draw.face, StateT.run_bind, hbelow]
  rfl

end Zeros

theorem explodes_one (d : Dice) : d.explodes 1 = false := by
  unfold Dice.explodes
  by_cases h : 1 < d.sides
  · have : 1 ≠ d.sides := by omega
    simp [this]
  · simp [h]

/-- From every place on there is a zero, so each die comes to a face that does not explode. -/
theorem exists_run_facesFrom (hzeros : ∀ place, ∃ distance, word (place + distance) = 0) (d : Dice) (wanted : Nat)
    (drawn : Nat) (seen : List Nat) :
    ∃ need faces drawn', ∀ tries extra, need ≤ tries →
      (d.facesFrom tries wanted seen).run ⟨word, drawn, need + extra⟩ = some (faces, ⟨word, drawn', extra⟩) := by
  induction wanted generalizing drawn seen with
  | zero => exact ⟨0, seen, drawn, fun tries extra _ => by simp [Dice.facesFrom]⟩
  | succ wanted ih =>
    obtain ⟨distance, hzero⟩ := hzeros drawn
    induction distance using Nat.strongRecOn generalizing drawn seen with
    | ind distance ihdistance =>
      obtain ⟨rejected, face, hle, hlast, hface⟩ := exists_run_face d.sides hzero
      -- A face that explodes is no zero, so the next zero is nearer than before.
      have hrest : ∃ need faces drawn', ∀ tries extra, need ≤ tries →
          (d.facesFrom tries (if d.explodes face then wanted + 1 else wanted) (face :: seen)).run
            ⟨word, drawn + (rejected + 1), need + extra⟩ = some (faces, ⟨word, drawn', extra⟩) := by
        cases hexplodes : d.explodes face with
        | false => exact ih _ _
        | true =>
          have hlt : rejected ≠ distance := by
            intro heq
            rw [hlast heq, explodes_one] at hexplodes
            cases hexplodes
          refine ihdistance (distance - (rejected + 1)) (by omega) _ _ ?_
          rw [← hzero]
          congr 1
          omega
      obtain ⟨need, faces, drawn', hrest⟩ := hrest
      refine ⟨rejected + 1 + need, faces, drawn', fun tries extra htries => ?_⟩
      obtain ⟨tries, rfl⟩ : ∃ fewer, tries = fewer + 1 := ⟨tries - 1, by omega⟩
      rw [Dice.facesFrom, StateT.run_bind, Nat.add_assoc, hface]
      exact hrest tries extra (by omega)

theorem completes_roll (hzeros : ∀ place, ∃ distance, word (place + distance) = 0) (d : Dice) :
    d.roll.Completes word := by
  intro drawn
  obtain ⟨need, faces, drawn', hrun⟩ := exists_run_facesFrom hzeros d d.count drawn []
  refine ⟨need, d.total faces.reverse, drawn', fun extra => ?_⟩
  have hfaces : d.faces.run ⟨word, drawn, need + extra⟩ = some (faces.reverse, ⟨word, drawn', extra⟩) := by
    change ((do return (← d.facesFrom (need + extra) d.count []).reverse : Draw (List Nat))).run _ = _
    rw [StateT.run_bind, hrun _ _ (Nat.le_add_right need extra)]
    rfl
  rw [Dice.roll, StateT.run_bind, hfaces]
  rfl

/-- Two zeros in a row stand at an even distance from every place. -/
def Rests (word : Nat → UInt32) : Prop :=
  ∀ place, ∃ distance, word (place + 2 * distance) = 0 ∧ word (place + 2 * distance + 1) = 0

theorem Rests.lively (h : Rests word) : Lively word := by
  constructor
  · apply completes_roll
    intro place
    obtain ⟨distance, hzero, -⟩ := h place
    exact ⟨2 * distance, hzero⟩
  · intro low high drawn
    by_cases hsize : (high - low + 1).toNat = 0x10000000000000000
    · refine ⟨2, Int.bmod (numberAt word 2 drawn) 0x10000000000000000, drawn + 2, fun extra => ?_⟩
      simp only [Draw.between, hsize, if_true, StateT.run_bind, run_number, Option.bind_eq_bind, Option.bind_some,
        StateT.run_pure]
      rfl
    · obtain ⟨distance, hfirst, hsecond⟩ := h drawn
      have hnumber : numberAt word 2 (drawn + 2 * distance) = 0 := by simp [numberAt, hfirst, hsecond]
      obtain ⟨rejected, n, -, -, hrun⟩ := exists_run_below Nat.two_pos (high - low + 1).toNat hnumber
      refine ⟨2 * (rejected + 1), low + n, drawn + 2 * (rejected + 1), fun extra => ?_⟩
      simp only [Draw.between, hsize, if_false, StateT.run_bind, hrun, Option.bind_eq_bind, Option.bind_some,
        StateT.run_pure]
      rfl

theorem lively_zero : Lively fun _ => 0 := Rests.lively fun _ => ⟨0, rfl, rfl⟩

/-- A stream that comes to rest after every word. -/
def surges (place : Nat) : UInt32 := if place % 4 = 0 then 0xE0000000 else 0

theorem lively_surges : Lively surges := by
  apply Rests.lively
  intro place
  have hrest : ∀ far, far % 4 ≠ 0 → surges far = 0 := fun far h => if_neg h
  by_cases h : place % 4 = 0 ∨ place % 4 = 3
  · exact ⟨1, hrest _ (by omega), hrest _ (by omega)⟩
  · exact ⟨0, hrest _ (by omega), hrest _ (by omega)⟩

/-- A die of six sides explodes on it, and one of four has a draw rejected. -/
example :
    ((Dice.roll ⟨1, 6, true, 0⟩).run (.ofStream surges 9)).map (fun p => (p.1, p.2.drawn)) = some (7, 2) ∧
      ((Dice.roll ⟨1, 4, false, 0⟩).run (.ofStream surges 9)).map (fun p => (p.1, p.2.drawn)) = some (1, 2) := by
  decide +kernel

end Tabletop.Random
