import Mathlib.Data.List.TakeWhile
import Tabletop.Proofs.Dice.Longest

/-!
# Dice written and read back

Dice are read back from the text they are written as, also inside other text, as long as nothing in front of it
or behind it can be taken for a part of it.
-/

namespace Tabletop.Dice

open Text (isDigit)

variable {d : Dice} {e : Expression} {n : Nat}

/-! ## The written expression -/

/-- The expression that dice are written as. -/
def expression (d : Dice) : Expression where
  count := (toString d.count).toList
  sides := (toString d.sides).toList
  exploding := d.exploding
  modifier := if d.modifier = 0 then [] else (signed d.modifier).toList

theorem text_expression (d : Dice) : d.expression.text = d.text.toList := by
  unfold expression Expression.text text
  simp only [String.toList_append]
  split <;> split <;> simp

theorem signed_negSucc (n : Nat) : (signed (Int.negSucc n)).toList = '-' :: (toString (n + 1)).toList := by
  rw [signed, if_pos (Int.negSucc_lt_zero n), Text.toList_toString_negSucc]

theorem signed_ofNat (n : Nat) : (signed (Int.ofNat n)).toList = '+' :: (toString n).toList := by
  have hnonneg : ¬ Int.ofNat n < 0 := by simp
  rw [signed, if_neg hnonneg, String.toList_append]
  rfl

theorem writes_expression (h : d.InRange) : d.expression.Writes d := by
  refine ⟨.inr (Text.digits?_toString d.count), Text.digits?_toString d.sides, rfl, ?_, h⟩
  unfold expression
  dsimp only
  split
  next hzero => exact .inl ⟨rfl, hzero⟩
  next =>
    right
    cases d.modifier with
    | ofNat n => exact ⟨_, n, Text.digits?_toString n, .inl ⟨signed_ofNat n, rfl⟩⟩
    | negSucc n => exact ⟨_, n + 1, Text.digits?_toString (n + 1), .inr ⟨signed_negSucc n, rfl⟩⟩

/-! ## Inside other text -/

namespace Expression

section Before

variable {before : List Char} (hd : 'd' ∉ before) (hlast : ∀ c ∈ before.getLast?, isDigit c = false)
include hd hlast

theorem leading?_append_eq_none (hne : before ≠ []) (cs : List Char) : leading? (before ++ cs) = none := by
  have hdrop : before.dropWhile isDigit ≠ [] := by
    rw [ne_eq, List.dropWhile_eq_nil_iff]
    intro hall
    have hdigit := hall _ (List.getLast_mem hne)
    rw [hlast _ (List.getLast?_eq_some_getLast hne)] at hdigit
    cases hdigit
  obtain ⟨c, rest, hcons⟩ := List.exists_cons_of_ne_nil hdrop
  have hmem : c ∈ before := (List.dropWhile_sublist isDigit).subset (by simp [hcons])
  apply leading?_of_ne
  rw [List.dropWhile_append, hcons]
  intro hhead
  obtain rfl := Option.some.inj hhead
  exact hd hmem

theorem first?_append (cs : List Char) : first? (before ++ cs) = first? cs := by
  induction before with
  | nil => rfl
  | cons c before ih =>
    have hnone := leading?_append_eq_none hd hlast (List.cons_ne_nil c before) cs
    rw [List.cons_append] at hnone
    rw [List.cons_append, first?, hnone]
    refine ih (fun hmem => hd (List.mem_cons_of_mem c hmem)) fun last hmem => hlast last ?_
    rw [Option.mem_def] at hmem
    rw [List.getLast?_cons, hmem]
    rfl

end Before

/-! ## What can be read -/

theorem countOf?_lt {n : Nat} (h : e.countOf? = some n) : n < 0x100000000 := by
  unfold countOf? at h
  split at h
  · obtain rfl := Option.some.inj h
    decide
  · exact Text.lt_of_count? h

theorem inRange_addedOf? {n : Int} (h : e.addedOf? = some n) : Text.InRange n := by
  unfold addedOf? at h
  split at h
  · obtain rfl := Option.some.inj h
    exact ⟨by decide, by decide⟩
  · exact (Text.integer?_eq_some.mp h).2

theorem inRange_of_dice? (h : e.dice? = some d) : d.InRange := by
  simp only [dice?_eq, Option.bind_eq_some_iff] at h
  obtain ⟨count, hcount, sides, hsides, modifier, hmodifier, h⟩ := h
  split at h
  · cases h
  next hpos =>
    obtain rfl := Option.some.inj h
    obtain ⟨hle, hlt⟩ := inRange_addedOf? hmodifier
    exact ⟨countOf?_lt hcount, Nat.pos_of_ne_zero hpos, Text.lt_of_count? hsides, hle, hlt⟩

end Expression

theorem inRange_of_parse {text : String} (h : parse text = .ok d) : d.InRange := by
  unfold parse at h
  split at h
  next found hfound =>
    cases h
    obtain ⟨e, -, he⟩ := Option.bind_eq_some_iff.mp hfound
    exact Expression.inRange_of_dice? he
  next => cases h

theorem parse_text_inside (h : d.InRange) (before after : String) (hd : 'd' ∉ before.toList)
    (hlast : ∀ c ∈ before.toList.getLast?, isDigit c = false) (hafter : Expression.Follows after.toList) :
    parse (before ++ d.text ++ after) = .ok d := by
  have hwrites := writes_expression h
  have htext : (before ++ d.text ++ after).toList = before.toList ++ (d.expression.text ++ after.toList) := by
    rw [text_expression]
    simp
  have hfirst : Expression.first? (before ++ d.text ++ after).toList = some d.expression := by
    rw [htext, Expression.first?_append hd hlast, Expression.first?_text_append hwrites.formed hafter]
  rw [parse, hfirst, Option.bind_some, hwrites.dice?]

theorem parse_own_text (h : d.InRange) : parse d.text = .ok d := by
  have hparse := parse_text_inside h "" "" (by simp) (by simp) Expression.follows_nil
  simpa using hparse

/-! ## One die -/

theorem text_one_die (n : Nat) : (Dice.mk 1 n false 0).text = "1d" ++ toString n := by
  have hone : toString 1 ++ "d" = "1d" := by decide
  change toString 1 ++ "d" ++ toString n ++ "" ++ "" = "1d" ++ toString n
  rw [hone, String.append_empty, String.append_empty]

theorem parse_one_die (hpos : 0 < n) (hlt : n < 0x100000000) :
    parse ("1d" ++ toString n) = .ok ⟨1, n, false, 0⟩ := by
  rw [← text_one_die]
  exact parse_own_text ⟨by simp, hpos, hlt, by simp, by simp⟩

theorem parse_vast_die (h : 0x100000000 ≤ n) :
    parse ("1d" ++ toString n) = .error (.malformed ("1d" ++ toString n)) := by
  have hsides : Text.digits? (toString n).toList = some n := Text.digits?_toString n
  have hformed : (Expression.mk ['1'] (toString n).toList false []).Formed :=
    ⟨List.forall_mem_singleton.mpr (by decide), Expression.isDigit_of_digits? hsides, Text.ne_nil_of_digits? hsides, .absent⟩
  have hnone : (Expression.mk ['1'] (toString n).toList false []).dice? = none := by
    rw [Expression.dice?_eq_none_iff hformed]
    apply Expression.Bad.sides
    rintro ⟨m, hm, hdigits⟩
    obtain rfl := Option.some.inj (hsides.symm.trans hdigits)
    omega
  have htext : String.ofList (Expression.mk ['1'] (toString n).toList false []).text = "1d" ++ toString n := by
    rw [← String.toList_inj]
    simp [Expression.text]
  have hparse := Expression.parse_text hformed
  rw [hnone, htext] at hparse
  exact hparse

/--
Dice in range are read back from their text, alone or inside a text that does not go on with them, and whatever is
read is in range.
-/
theorem parse_around_text :
    (∀ (d : Dice) (before after : String), d.InRange → 'd' ∉ before.toList →
      (∀ c ∈ before.toList.getLast?, isDigit c = false) →
      (∀ c ∈ after.toList.head?, isDigit c = false ∧ c ≠ 'x' ∧ c ≠ '+' ∧ c ≠ '-') →
      parse (before ++ d.text ++ after) = .ok d) ∧
    (∀ d : Dice, d.InRange → parse d.text = .ok d) ∧
    ∀ text d, parse text = .ok d → d.InRange ∧ parse d.text = .ok d := by
  refine ⟨fun d before after h => parse_text_inside h before after, fun d h => parse_own_text h, ?_⟩
  intro text d h
  have hrange := inRange_of_parse h
  exact ⟨hrange, parse_own_text hrange⟩

theorem parse_around_text_bounds :
    (Dice.mk 0 0xFFFFFFFF true (-0x8000000000000000)).text = "0d4294967295x-9223372036854775808" ∧
      parse ("7 x20+" ++ "0d4294967295x-9223372036854775808" ++ "d6") =
        .ok ⟨0, 0xFFFFFFFF, true, -0x8000000000000000⟩ ∧
      parse "d020+0" = .ok ⟨1, 20, false, 0⟩ ∧ (Dice.mk 1 20 false 0).text = "1d20" ∧
      parse "1d20" = .ok ⟨1, 20, false, 0⟩ := by
  have htext : (Dice.mk 0 0xFFFFFFFF true (-0x8000000000000000)).text = "0d4294967295x-9223372036854775808" := by
    decide +kernel
  have hrange : (Dice.mk 0 0xFFFFFFFF true (-0x8000000000000000)).InRange :=
    ⟨by decide, by decide, by decide, by decide, by decide⟩
  have hlast : ∀ c ∈ "7 x20+".toList.getLast?, isDigit c = false := by
    rintro c ⟨⟩
    decide
  have hafter : ∀ c ∈ "d6".toList.head?, isDigit c = false ∧ c ≠ 'x' ∧ c ≠ '+' ∧ c ≠ '-' := by
    rintro c ⟨⟩
    decide
  have hinside := parse_around_text.1 _ "7 x20+" "d6" hrange (by simp) hlast hafter
  rw [htext] at hinside
  have hread : parse "d020+0" = .ok ⟨1, 20, false, 0⟩ := by decide +kernel
  have hown := (parse_around_text.2.2 _ _ hread).2
  have htwenty : (Dice.mk 1 20 false 0).text = "1d20" := by decide +kernel
  rw [htwenty] at hown
  exact ⟨htext, hinside, hread, htwenty, hown⟩

end Tabletop.Dice
