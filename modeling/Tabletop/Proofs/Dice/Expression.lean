import Tabletop.Dice.Expression
import Tabletop.Proofs.Text.Integer

/-!
# Dice expressions as they are written

An expression that a text starts with is made of the characters it was read from, and one that is followed by
nothing that could go on is read as it is written. What its numbers come to is settled apart from that.
-/

namespace Tabletop.Dice.Expression

open Text (isDigit)

variable {e : Expression} {d : Dice} {cs run rest digits : List Char}

/-! ## Runs -/

section Run

variable {p : Char → Bool} (hrest : ∀ c ∈ rest.head?, p c = false)
include hrest

theorem takeWhile_border : rest.takeWhile p = [] := by
  cases rest with
  | nil => rfl
  | cons c rest => simp [hrest c rfl]

theorem dropWhile_border : rest.dropWhile p = rest := by
  cases rest with
  | nil => rfl
  | cons c rest => simp [hrest c rfl]

variable (hrun : ∀ c ∈ run, p c = true)
include hrun

theorem takeWhile_run : (run ++ rest).takeWhile p = run := by
  rw [List.takeWhile_append_of_pos hrun, takeWhile_border hrest, List.append_nil]

theorem dropWhile_run : (run ++ rest).dropWhile p = rest := by
  rw [List.dropWhile_append_of_pos hrun, dropWhile_border hrest]

end Run

theorem isDigit_of_digits? {n : Nat} (h : Text.digits? digits = some n) : ∀ c ∈ digits, isDigit c = true := by
  intro c hc
  simp [isDigit, Text.isAsciiDigit_of_digits? h c hc]

/-! ## Parts -/

/-- A sign and digits, or nothing. -/
inductive Modifier : List Char → Prop where
  | absent : Modifier []
  | written {sign : Char} {digits : List Char} (hsign : sign = '+' ∨ sign = '-') (hne : digits ≠ [])
      (hdigits : ∀ c ∈ digits, isDigit c = true) : Modifier (sign :: digits)

/-- The parts are such as can stand in a text, in the digits of any script. -/
structure Formed (e : Expression) : Prop where
  count : ∀ c ∈ e.count, isDigit c = true
  sides : ∀ c ∈ e.sides, isDigit c = true
  sides_ne : e.sides ≠ []
  modifier : Modifier e.modifier

/-- What may follow an expression without being read as part of it. -/
def Follows (rest : List Char) : Prop :=
  ∀ c ∈ rest.head?, isDigit c = false ∧ c ≠ 'x' ∧ c ≠ '+' ∧ c ≠ '-'

theorem follows_nil : Follows [] := by simp [Follows]

theorem follows_cons {c : Char} (cs : List Char) (h : isDigit c = false ∧ c ≠ 'x' ∧ c ≠ '+' ∧ c ≠ '-') :
    Follows (c :: cs) := by
  intro d hd
  obtain rfl := Option.some.inj hd
  exact h

theorem follows_blank (cs : List Char) : Follows (' ' :: cs) := follows_cons cs (by decide)

theorem follows_close : Follows ['}'] := follows_cons [] (by decide)

theorem modifierOf_append (h : Modifier cs) (hrest : Follows rest) : modifierOf (cs ++ rest) = (cs, rest) := by
  cases h with
  | absent =>
    cases rest with
    | nil => rfl
    | cons c rest =>
      obtain ⟨-, -, hplus, hminus⟩ := hrest c rfl
      simp [modifierOf, hplus, hminus]
  | written hsign hne hdigits =>
    have hborder : ∀ c ∈ rest.head?, isDigit c = false := fun c hc => (hrest c hc).1
    rw [List.cons_append, modifierOf, takeWhile_run hborder hdigits, dropWhile_run hborder hdigits]
    simp [hsign, hne]

theorem modifier_modifierOf (cs : List Char) : Modifier (modifierOf cs).1 := by
  unfold modifierOf
  split
  · exact .absent
  next c cs =>
    split
    next h =>
      simp only [Bool.and_eq_true, Bool.or_eq_true, decide_eq_true_eq, Bool.not_eq_true',
        List.isEmpty_eq_false_iff] at h
      exact .written h.1 h.2 (List.all_eq_true.mp List.all_takeWhile)
    next => exact .absent

theorem modifierOf_split (cs : List Char) : (modifierOf cs).1 ++ (modifierOf cs).2 = cs := by
  unfold modifierOf
  split
  · rfl
  next c cs =>
    split
    · simp
    · rfl

theorem explodingOf_append (exploding : Bool) (hrest : rest.head? ≠ some 'x') :
    explodingOf ((if exploding then ['x'] else []) ++ rest) = (exploding, rest) := by
  cases exploding with
  | true => rfl
  | false =>
    unfold explodingOf
    split
    next rest heq => simp_all
    next => rfl

theorem explodingOf_split (cs : List Char) :
    (if (explodingOf cs).1 then ['x'] else []) ++ (explodingOf cs).2 = cs := by
  unfold explodingOf
  split <;> rfl

/-! ## Reading from the front -/

theorem head_modifier_append (h : Modifier cs) (hrest : Follows rest) :
    ∀ c ∈ (cs ++ rest).head?, isDigit c = false ∧ c ≠ 'x' := by
  intro c hc
  cases h with
  | absent => exact ⟨(hrest c hc).1, (hrest c hc).2.1⟩
  | written hsign =>
    obtain rfl := Option.some.inj hc
    rcases hsign with rfl | rfl <;> decide

theorem text_append (e : Expression) (rest : List Char) :
    e.text ++ rest =
      e.count ++ 'd' :: (e.sides ++ ((if e.exploding then ['x'] else []) ++ (e.modifier ++ rest))) := by
  simp [text]

theorem leading?_text (h : e.Formed) (hrest : Follows rest) : leading? (e.text ++ rest) = some (e, rest) := by
  -- Each part is read to its end, as the letter behind it cannot belong to it.
  have hmodifier := head_modifier_append h.modifier hrest
  have hx : (e.modifier ++ rest).head? ≠ some 'x' := fun hx => (hmodifier 'x' hx).2 rfl
  have hmark : ∀ c ∈ ((if e.exploding then ['x'] else []) ++ (e.modifier ++ rest)).head?,
      isDigit c = false := by
    intro c hc
    split at hc
    · obtain rfl := Option.some.inj hc
      decide
    · exact (hmodifier c hc).1
  have hd : ∀ c ∈ ('d' :: (e.sides ++ ((if e.exploding then ['x'] else []) ++ (e.modifier ++ rest)))).head?,
      isDigit c = false := by
    intro c hc
    obtain rfl := Option.some.inj hc
    decide
  rw [text_append, leading?, dropWhile_run hd h.count, takeWhile_run hd h.count]
  simp only [takeWhile_run hmark h.sides, dropWhile_run hmark h.sides, explodingOf_append e.exploding hx,
    modifierOf_append h.modifier hrest]
  simp [h.sides_ne]

theorem leading?_sound (h : leading? cs = some (e, rest)) : e.Formed ∧ cs = e.text ++ rest := by
  unfold leading? at h
  split at h
  next behind hd =>
    dsimp only at h
    split at h
    · cases h
    next hne =>
      have hcs := List.takeWhile_append_dropWhile (p := isDigit) (l := cs)
      have hbehind := List.takeWhile_append_dropWhile (p := isDigit) (l := behind)
      have hexploding := explodingOf_split (behind.dropWhile isDigit)
      have hmodifier := modifierOf_split (explodingOf (behind.dropWhile isDigit)).2
      obtain ⟨rfl, rfl⟩ := Prod.mk.inj (Option.some.inj h)
      constructor
      · exact ⟨List.all_eq_true.mp List.all_takeWhile, List.all_eq_true.mp List.all_takeWhile,
          by simpa using hne, modifier_modifierOf _⟩
      · simp only [text, List.append_assoc, List.cons_append]
        rw [hmodifier, hexploding, hbehind, ← hd, hcs]
  · cases h

theorem mem_modifier {c : Char} (h : Modifier cs) (hc : c ∈ cs) : isDigit c = true ∨ c = '+' ∨ c = '-' := by
  cases h with
  | absent => simp at hc
  | written hsign _ hdigits =>
    rcases List.mem_cons.mp hc with rfl | hc
    · exact .inr hsign
    · exact .inl (hdigits c hc)

theorem mem_text {c : Char} (h : e.Formed) (hc : c ∈ e.text) : isDigit c = true ∨ c ∈ ['d', 'x', '+', '-'] := by
  simp only [text, List.mem_append, List.mem_cons] at hc
  rcases hc with ((hc | rfl | hc) | hc) | hc
  · exact .inl (h.count c hc)
  · simp
  · exact .inl (h.sides c hc)
  · split at hc <;> simp_all
  · rcases mem_modifier h.modifier hc with hdigit | rfl | rfl <;> simp_all

theorem leading?_of_ne (h : (cs.dropWhile isDigit).head? ≠ some 'd') : leading? cs = none := by
  unfold leading?
  split
  next rest heq => simp [heq] at h
  next => rfl

theorem leading?_eq_none (h : 'd' ∉ cs ∨ ∀ c ∈ cs, isDigit c = false) : leading? cs = none := by
  rw [Option.eq_none_iff_forall_not_mem]
  rintro ⟨e, rest⟩ hread
  obtain ⟨hformed, rfl⟩ := leading?_sound hread
  rcases h with hd | hdigits
  · simp [text] at hd
  · obtain ⟨c, sides, hsides⟩ := List.exists_cons_of_ne_nil hformed.sides_ne
    have hc := hformed.sides c (by simp [hsides])
    rw [hdigits c (by simp [text, hsides])] at hc
    cases hc

/-! ## Reading in front of a close -/

theorem before?_eq_none (close : List Char) (h : 'd' ∉ cs ∨ ∀ c ∈ cs, isDigit c = false) :
    before? close cs = none := by
  induction cs with
  | nil => rfl
  | cons c cs ih =>
    rw [before?, leading?_eq_none h]
    refine ih (h.imp ?_ ?_)
    · exact fun hd hmem => hd (List.mem_cons_of_mem c hmem)
    · exact fun hdigits d hmem => hdigits d (List.mem_cons_of_mem c hmem)

theorem before?_text (h : e.Formed) {close : List Char} (hclose : Follows close) :
    before? close (e.text ++ close) = some e := by
  have hread := leading?_text h hclose
  cases htext : e.text with
  | nil => simp [text] at htext
  | cons c cs =>
    rw [htext, List.cons_append] at hread
    rw [List.cons_append, before?, hread]
    simp

/-- An expression does not reach over a blank, so none that starts in front of it can be the last. -/
theorem before?_append_blank (before behind : List Char) :
    before? ['}'] (before ++ ' ' :: behind) = before? ['}'] behind := by
  have hpass (c : Char) (cs : List Char) (hblank : ' ' ∈ c :: cs) (hnext : before? ['}'] cs = before? ['}'] behind) :
      before? ['}'] (c :: cs) = before? ['}'] behind := by
    rw [before?]
    split
    next e rest hread =>
      have hne : rest ≠ ['}'] := by
        rintro rfl
        obtain ⟨hformed, hcs⟩ := leading?_sound hread
        rw [hcs, List.mem_append] at hblank
        rcases hblank with hblank | hblank
        · exact absurd (mem_text hformed hblank) (by decide)
        · simp at hblank
      rw [if_neg hne, hnext]
    next => exact hnext
  induction before with
  | nil => exact hpass ' ' behind (by simp) rfl
  | cons c before ih => exact hpass c _ (by simp) ih

/-! ## Numbers -/

/-- The expression writes the dice: all its numbers in ASCII digits, whatever zeros lead them. -/
structure Writes (e : Expression) (d : Dice) : Prop where
  count : e.count = [] ∧ d.count = 1 ∨ Text.digits? e.count = some d.count
  sides : Text.digits? e.sides = some d.sides
  exploding : e.exploding = d.exploding
  modifier : e.modifier = [] ∧ d.modifier = 0 ∨
    ∃ digits k, Text.digits? digits = some k ∧
      (e.modifier = '+' :: digits ∧ d.modifier = k ∨ e.modifier = '-' :: digits ∧ d.modifier = -k)
  inRange : d.InRange

theorem Writes.formed (h : e.Writes d) : e.Formed := by
  obtain ⟨hcount, hsides, -, hmodifier, -⟩ := h
  refine ⟨?_, isDigit_of_digits? hsides, Text.ne_nil_of_digits? hsides, ?_⟩
  · rcases hcount with ⟨hcount, -⟩ | hcount
    · simp [hcount]
    · exact isDigit_of_digits? hcount
  · rcases hmodifier with ⟨hmodifier, -⟩ | ⟨digits, k, hdigits, ⟨hmodifier, -⟩ | ⟨hmodifier, -⟩⟩ <;> rw [hmodifier]
    · exact .absent
    · exact .written (.inl rfl) (Text.ne_nil_of_digits? hdigits) (isDigit_of_digits? hdigits)
    · exact .written (.inr rfl) (Text.ne_nil_of_digits? hdigits) (isDigit_of_digits? hdigits)

/-- The number of dice, one where none is written. -/
def countOf? (e : Expression) : Option Nat := if e.count.isEmpty then some 1 else Text.count? e.count

/-- The number that is added, zero where none is written. -/
def addedOf? (e : Expression) : Option Int :=
  if e.modifier.isEmpty then some 0 else Text.integer? e.modifier

theorem dice?_eq (e : Expression) :
    e.dice? = e.countOf?.bind fun count => (Text.count? e.sides).bind fun sides =>
      e.addedOf?.bind fun modifier =>
        if sides = 0 then none else some ⟨count, sides, e.exploding, modifier⟩ := by
  unfold dice? countOf? addedOf?
  split <;> split <;> rfl

theorem Writes.dice? (h : e.Writes d) : e.dice? = some d := by
  obtain ⟨hcount, hsides, hexploding, hmodifier, hcount_lt, hsides_pos, hsides_lt, hle, hlt⟩ := h
  have hc : e.countOf? = some d.count := by
    unfold countOf?
    rcases hcount with ⟨hnone, hone⟩ | hcount
    · simp [hnone, hone]
    · rw [if_neg (by simpa using Text.ne_nil_of_digits? hcount), Text.count?_of_digits? hcount hcount_lt]
  have hm : e.addedOf? = some d.modifier := by
    unfold addedOf?
    rcases hmodifier with ⟨hnone, hzero⟩ | ⟨digits, k, hdigits, hsign⟩
    · simp [hnone, hzero]
    · have hsigned : Text.signed? e.modifier = some d.modifier := by
        rcases hsign with ⟨htext, hvalue⟩ | ⟨htext, hvalue⟩
        · simp [htext, hvalue, Text.signed?, Text.unsigned?, hdigits]
        · simp [htext, hvalue, Text.signed?, hdigits]
      have hne : e.modifier ≠ [] := by
        rcases hsign with ⟨htext, -⟩ | ⟨htext, -⟩ <;> simp [htext]
      rw [if_neg (by simpa using hne), Text.integer?_eq_some.mpr ⟨hsigned, hle, hlt⟩]
  rw [dice?_eq, hc, Text.count?_of_digits? hsides hsides_lt, hm, hexploding]
  exact if_neg (Nat.pos_iff_ne_zero.mp hsides_pos)

end Tabletop.Dice.Expression
