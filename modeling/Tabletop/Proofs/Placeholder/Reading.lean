import Mathlib.Data.List.Forall2
import Tabletop.Placeholder.Reading
import Tabletop.Proofs.Name
import Tabletop.Proofs.Placeholder.Tokens
import Tabletop.Proofs.Random.Run

/-!
# Reading placeholders

What reading a text comes to apart from the numbers rolled: which tokens become placeholders, what those
say, and whether reading fails. All of this the text alone settles.
-/

namespace Tabletop

open Tabletop.Random

/-! ## Faults -/

def Dice.Expression.fault? (e : Dice.Expression) : Option Dice.Error :=
  if e.dice?.isSome then none else some (.malformed (String.ofList e.text))

namespace Placeholder

def Amount.quantityFault? : Amount → Option Dice.Error
  | .absent => none
  | .digits cs => if (Text.count? cs).isSome then none else some (.malformed (String.ofList cs))
  | .dice e => e.fault?

/-- The fault of a result. Digits have none. -/
def Amount.resultFault? : Amount → Option Dice.Error
  | .dice e => e.fault?
  | _ => none

/-- The result that counts: without an entity there is none. -/
def Outline.resultPart (o : Outline) : Amount := if o.entity.isEmpty then .absent else o.result

/-- The fault of a token, its quantity before its result. Tokens that are no placeholders have none. -/
def tokenFault? (token : List Char) : Option Dice.Error :=
  let o := outline token
  if o.isKept then o.quantity.quantityFault?.or o.resultPart.resultFault? else none

theorem hasFault_rollWritten (e : Dice.Expression) : (rollWritten e).HasFault e.fault? := by
  unfold rollWritten Dice.Expression.fault?
  cases e.dice? with
  | some d => exact Roll.hasFault_liftM d.roll
  | none => exact Roll.hasFault_throw _

theorem Amount.hasFault_quantity (a : Amount) : a.quantity.HasFault a.quantityFault? := by
  cases a with
  | absent => exact Roll.hasFault_pure 1
  | digits cs =>
    simp only [quantity, quantityFault?]
    cases Text.count? cs with
    | some n => exact Roll.hasFault_pure n
    | none => exact Roll.hasFault_throw _
  | dice e => exact hasFault_rollWritten e

theorem Amount.hasFault_result (a : Amount) : a.result.HasFault a.resultFault? := by
  cases a with
  | absent => exact Roll.hasFault_pure none
  | digits cs => exact Roll.hasFault_pure _
  | dice e =>
    have h := Roll.hasFault_bind (hasFault_rollWritten e) fun n =>
      Roll.hasFault_pure (ε := Dice.Error) (some (n : Int))
    rwa [Option.or_none] at h

theorem hasFault_ofToken (token : List Char) : (ofToken token).HasFault (tokenFault? token) := by
  unfold ofToken tokenFault?
  dsimp only
  split
  · refine Roll.hasFault_bind (Amount.hasFault_quantity _) fun quantity => ?_
    have h := Roll.hasFault_bind (Amount.hasFault_result (outline token).resultPart) fun result =>
      Roll.hasFault_pure (ε := Dice.Error) (some (⟨String.ofList token,
        (outline token).quantity.diceText, (outline token).entity,
        (outline token).resultPart.diceText, quantity, result⟩ : Placeholder))
    rwa [Option.or_none] at h
  · exact Roll.hasFault_pure none

theorem hasFault_ofTokens (ts : List (List Char)) :
    (ofTokens ts).HasFault (ts.findSome? tokenFault?) := by
  induction ts with
  | nil => exact Roll.hasFault_pure []
  | cons token rest ih =>
    have hcons : (token :: rest).findSome? tokenFault? =
        (tokenFault? token).or (rest.findSome? tokenFault?) := by
      rw [List.findSome?_cons]
      cases tokenFault? token <;> rfl
    rw [ofTokens, hcons]
    refine Roll.hasFault_bind (hasFault_ofToken token) fun found => ?_
    cases found with
    | none => exact ih
    | some p =>
      have h := Roll.hasFault_bind ih fun ps => Roll.hasFault_pure (ε := Dice.Error) (p :: ps)
      rwa [Option.or_none] at h

theorem hasFault_parse (text : String) :
    (parse text).HasFault ((tokens text.toList).findSome? tokenFault?) :=
  hasFault_ofTokens _

/-! ## What a placeholder takes from its token -/

theorem outline_braced (inside : List Char) :
    outline ('{' :: inside ++ ['}']) =
      ⟨quantityOf (inside ++ ['}']), nameOf (inside ++ ['}']), resultOf (inside ++ ['}'])⟩ := rfl

/-- The placeholder says what its token says. Only its two numbers are open. -/
structure ReadFrom (token : List Char) (p : Placeholder) : Prop where
  kept : (outline token).isKept = true
  token_eq : p.token = String.ofList token
  quantityDice_eq : p.quantityDice = (outline token).quantity.diceText
  entity_eq : p.entity = (outline token).entity
  resultDice_eq : p.resultDice = (outline token).resultPart.diceText

variable {s s' : Source}

theorem ofToken_ok {token : List Char} {found : Option Placeholder}
    (h : (ofToken token).run s = some (.ok found, s')) :
    (∀ p, found = some p → ReadFrom token p) ∧ (found = none → (outline token).isKept = false) := by
  unfold ofToken at h
  dsimp only at h
  split at h
  next hkept =>
    obtain ⟨quantity, t, -, h⟩ := Roll.run_bind_ok_iff.mp h
    obtain ⟨result, u, -, h⟩ := Roll.run_bind_ok_iff.mp h
    simp only [Roll.run_pure, Option.some.injEq, Prod.mk.injEq, Except.ok.injEq] at h
    obtain ⟨rfl, -⟩ := h
    refine ⟨?_, by simp⟩
    rintro p ⟨⟩
    exact ⟨hkept, rfl, rfl, rfl, by simp only [Outline.resultPart]⟩
  next hkept =>
    simp only [Roll.run_pure, Option.some.injEq, Prod.mk.injEq, Except.ok.injEq] at h
    obtain ⟨rfl, -⟩ := h
    exact ⟨by simp, fun _ => by simpa using hkept⟩

def keptTokens (cs : List Char) : List (List Char) := (tokens cs).filter fun t => (outline t).isKept

theorem ofTokens_reaches {ts : List (List Char)} {ps : List Placeholder}
    (h : (ofTokens ts).run s = some (.ok ps, s')) :
    List.Forall₂ (fun token p => (ofToken token).Reaches (some p)) (ts.filter fun t => (outline t).isKept) ps := by
  induction ts generalizing s ps with
  | nil =>
    rw [ofTokens, Roll.run_pure] at h
    cases h
    exact .nil
  | cons token rest ih =>
    rw [ofTokens] at h
    obtain ⟨found, t, hfound, h⟩ := Roll.run_bind_ok_iff.mp h
    obtain ⟨hsome, hnone⟩ := ofToken_ok hfound
    cases found with
    | none =>
      rw [List.filter_cons, hnone rfl]
      exact ih h
    | some p =>
      obtain ⟨rest', u, hrest, h⟩ := Roll.run_bind_ok_iff.mp h
      rw [Roll.run_pure] at h
      cases h
      rw [List.filter_cons, if_pos (hsome p rfl).kept]
      exact .cons ⟨s, t, hfound⟩ (ih hrest)

theorem parse_reaches {text : String} {ps : List Placeholder} (h : (parse text).run s = some (.ok ps, s')) :
    List.Forall₂ (fun token p => (ofToken token).Reaches (some p)) (keptTokens text.toList) ps :=
  ofTokens_reaches h

/-- A text that is read gives one placeholder for each token that is kept, in order. -/
theorem parse_ok {text : String} {ps : List Placeholder}
    (h : (parse text).run s = some (.ok ps, s')) : List.Forall₂ ReadFrom (keptTokens text.toList) ps := by
  refine (parse_reaches h).imp fun token p hp => ?_
  obtain ⟨t, u, hrun⟩ := hp
  exact (ofToken_ok hrun).1 p rfl

section Forall₂

variable {R : List Char → Placeholder → Prop} {ts : List (List Char)} {ps : List Placeholder}
  (h : List.Forall₂ R ts ps)
include h

theorem exists_token {p : Placeholder} (hp : p ∈ ps) : ∃ token ∈ ts, R token p := by
  induction h with
  | nil => simp at hp
  | cons hread _ ih =>
    rcases List.mem_cons.mp hp with rfl | hp
    · exact ⟨_, List.mem_cons_self, hread⟩
    · obtain ⟨token, htoken, hread⟩ := ih hp
      exact ⟨token, List.mem_cons_of_mem _ htoken, hread⟩

theorem exists_placeholder {token : List Char} (htoken : token ∈ ts) : ∃ p ∈ ps, R token p := by
  induction h with
  | nil => simp at htoken
  | cons hread _ ih =>
    rcases List.mem_cons.mp htoken with rfl | htoken
    · exact ⟨_, List.mem_cons_self, hread⟩
    · obtain ⟨p, hp, hread⟩ := ih htoken
      exact ⟨p, List.mem_cons_of_mem _ hp, hread⟩

end Forall₂

theorem Amount.diceText_isEmpty (a : Amount) : a.diceText.isEmpty = !a.isDice := by
  cases a with
  | absent => rfl
  | digits cs => rfl
  | dice e =>
    have hne : String.ofList e.text ≠ "" := by
      rw [ne_eq, ← String.toList_eq_nil_iff, String.toList_ofList]
      simp [Dice.Expression.text]
    simp [diceText, isDice, hne]

theorem ReadFrom.quantityDice_isEmpty {token : List Char} {p : Placeholder} (h : ReadFrom token p) :
    (!p.quantityDice.isEmpty) = (outline token).quantity.isDice := by
  rw [h.quantityDice_eq, Amount.diceText_isEmpty, Bool.not_not]

theorem any_isDice {ts : List (List Char)} {ps : List Placeholder} (h : List.Forall₂ ReadFrom ts ps) :
    (ts.any fun t => (outline t).quantity.isDice) = ps.any fun p => !p.quantityDice.isEmpty := by
  induction h with
  | nil => rfl
  | cons hread _ ih => rw [List.any_cons, List.any_cons, ih, hread.quantityDice_isEmpty]

theorem map_entity {ts : List (List Char)} {ps : List Placeholder} (h : List.Forall₂ ReadFrom ts ps) :
    ps.map (·.entity) = ts.map fun t => (outline t).entity := by
  induction h with
  | nil => rfl
  | cons hread _ ih => rw [List.map_cons, List.map_cons, ih, hread.entity_eq]

/-! ## Names in tokens -/

theorem isAsciiDigit_of_isNameChar {c : Char} (h : isNameChar c = true) :
    Text.isAsciiDigit c = false := by
  have hmarks : "_',;:-()".toList = ['_', '\'', ',', ';', ':', '-', '(', ')'] := by decide
  rw [Bool.eq_false_iff]
  intro hdigit
  rw [Text.isAsciiDigit_iff] at hdigit
  simp only [isNameChar, hmarks, Bool.or_eq_true, Bool.and_eq_true, decide_eq_true_eq, Char.le_def,
    UInt32.le_iff_toNat_le, Char.toNat_val, List.contains_eq_mem, List.mem_cons, List.not_mem_nil,
    or_false, ← Char.toNat_inj] at h
  simp [Text.isBlank] at h
  omega

theorem isNameChar_of_mem_nameRun {atBorder : Bool} {cs : List Char} {c : Char}
    (h : c ∈ nameRun atBorder cs) : isNameChar c = true := by
  fun_induction nameRun atBorder cs with
  | case1 => simp at h
  | case2 => exact (List.all_eq_true.mp List.all_takeWhile) c h
  | case3 _ _ _ _ ih => exact ih h

theorem isPlain_of_mem_entity {token : List Char} {c : Char} (h : c ∈ (outline token).entity.toList) :
    Name.isPlain c = true := by
  simp only [outline, nameOf] at h
  refine Name.isPlain_of_mem_normalize (fun d hd => isAsciiDigit_of_isNameChar ?_) h
  rw [String.toList_ofList] at hd
  split at hd
  all_goals exact isNameChar_of_mem_nameRun hd

/-! ## Characters of names -/

theorem isDigit_of_isPlain {c : Char} (h : Name.isPlain c = true) : Text.isDigit c = false := by
  rw [Name.isPlain_iff] at h
  have hascii : Text.isAsciiDigit c = false := by
    rw [Bool.eq_false_iff, ne_eq, Text.isAsciiDigit_iff]
    omega
  have hlow : ¬ 0x80 ≤ c.toNat := by omega
  simp [Text.isDigit, hascii, hlow]

theorem isNameChar_of_isPlain {c : Char} (h : Name.isPlain c = true) : isNameChar c = true := by
  simp only [Name.isPlain, Bool.or_eq_true, Bool.and_eq_true, beq_iff_eq] at h
  rcases h with h | rfl
  · simp [isNameChar, h]
  · decide

theorem isDigit_of_isNameChar {c : Char} (h : isNameChar c = true) : Text.isDigit c = false := by
  by_cases hblank : Text.isBlank c = true
  · exact Text.isDigit_of_isBlank hblank
  · have hmarks : "_',;:-()".toList = ['_', '\'', ',', ';', ':', '-', '(', ')'] := by decide
    have hlow : ¬ 0x80 ≤ c.toNat := by
      simp only [isNameChar, hmarks, hblank, Bool.or_eq_true, Bool.and_eq_true, decide_eq_true_eq, Char.le_def,
        UInt32.le_iff_toNat_le, Char.toNat_val, List.contains_eq_mem, List.mem_cons, List.not_mem_nil,
        or_false, ← Char.toNat_inj] at h
      simp at h
      omega
    simp [Text.isDigit, isAsciiDigit_of_isNameChar h, hlow]

end Placeholder

end Tabletop
