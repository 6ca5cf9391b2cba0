import Tabletop.Proofs.Dice.Roll
import Tabletop.Proofs.Placeholder.Fault
import Tabletop.Proofs.Text.Integer

/-!
# What is true of every placeholder

The tokens of the placeholders of a text stand in it one behind another. Each placeholder has a name in its normal
form, or is a bare roll, and its numbers are either written in its token or rolled.
-/

namespace Tabletop

open Tabletop.Random

namespace Placeholder

variable {text : List Char} {ts us : List (List Char)} {a : Amount} {s s' : Source}

/-! ## Places of tokens -/

/-- Each of the tokens stands in the text, behind the end of the one before. -/
def StandIn : List (List Char) → List Char → Prop
  | [], _ => True
  | token :: rest, text => ∃ before after, text = before ++ (token ++ after) ∧ StandIn rest after

theorem StandIn.behind (h : StandIn ts text) (front : List Char) : StandIn ts (front ++ text) := by
  cases ts with
  | nil => trivial
  | cons token rest =>
    obtain ⟨before, after, rfl, hrest⟩ := h
    exact ⟨front ++ before, after, by rw [List.append_assoc], hrest⟩

theorem StandIn.sublist (h : StandIn ts text) (hsub : us.Sublist ts) : StandIn us text := by
  induction hsub generalizing text with
  | slnil => trivial
  | cons token _ ih =>
    obtain ⟨before, after, rfl, hrest⟩ := h
    rw [← List.append_assoc]
    exact (ih hrest).behind _
  | cons_cons token _ ih =>
    obtain ⟨before, after, rfl, hrest⟩ := h
    exact ⟨before, after, rfl, ih hrest⟩

theorem standIn_flatMap_text (l : List Piece) : StandIn (l.filterMap Piece.token?) (l.flatMap Piece.text) := by
  induction l with
  | nil => trivial
  | cons piece rest ih =>
    rw [List.flatMap_cons]
    cases piece with
    | letter c => exact ih.behind [c]
    | token cs => exact ⟨[], rest.flatMap Piece.text, rfl, ih⟩

theorem standIn_keptTokens (text : List Char) : StandIn (keptTokens text) text := by
  have h := standIn_flatMap_text (pieces text)
  rw [pieces_text] at h
  exact h.sublist List.filter_sublist

/-! ## Numbers that are written or rolled -/

theorem le_of_run_rollWritten {e : Dice.Expression} {n : Nat} (h : (rollWritten e).run s = some (.ok n, s')) :
    n ≤ 0xFFFFFFFF := by
  unfold rollWritten at h
  split at h
  next d _ =>
    rw [Roll.run_liftM] at h
    obtain ⟨⟨m, t⟩, hroll, heq⟩ := Option.map_eq_some_iff.mp h
    cases heq
    exact Dice.le_of_run_roll hroll
  next => cases h

/-- What an amount can come to as a quantity. -/
inductive Amount.AsQuantity : Amount → Nat → Prop where
  | absent {n : Nat} (h : n = 1) : AsQuantity .absent n
  | digits {cs : List Char} {n : Nat} (h : Text.count? cs = some n) : AsQuantity (.digits cs) n
  | dice {e : Dice.Expression} {n : Nat} (h : n ≤ 0xFFFFFFFF) : AsQuantity (.dice e) n

/-- What an amount can come to as a result. -/
inductive Amount.AsResult : Amount → Option Int → Prop where
  | absent {result : Option Int} (h : result = none) : AsResult .absent result
  | digits {cs : List Char} {result : Option Int} (h : Text.integer? cs = result) : AsResult (.digits cs) result
  | dice {e : Dice.Expression} {result : Option Int} (h : ∃ n : Nat, n ≤ 0xFFFFFFFF ∧ result = some (n : Int)) :
      AsResult (.dice e) result

theorem Amount.asQuantity_of_run {n : Nat} (h : a.quantity.run s = some (.ok n, s')) : a.AsQuantity n := by
  cases a with
  | absent =>
    cases h
    exact .absent rfl
  | digits cs =>
    unfold quantity at h
    dsimp only at h
    split at h
    next m hm =>
      cases h
      exact .digits hm
    next => cases h
  | dice e => exact .dice (le_of_run_rollWritten h)

theorem Amount.asResult_of_run {result : Option Int} (h : a.result.run s = some (.ok result, s')) :
    a.AsResult result := by
  cases a with
  | absent =>
    cases h
    exact .absent rfl
  | digits cs =>
    cases h
    exact .digits rfl
  | dice e =>
    obtain ⟨n, t, hroll, h⟩ := Roll.run_bind_ok_iff.mp h
    rw [Roll.run_pure] at h
    cases h
    exact .dice ⟨n, le_of_run_rollWritten hroll, rfl⟩

theorem Amount.AsQuantity.le {n : Nat} (h : a.AsQuantity n) : n ≤ 0xFFFFFFFF := by
  cases h with
  | absent hone => omega
  | digits hcount =>
    have := Text.lt_of_count? hcount
    omega
  | dice hle => exact hle

theorem isDigit_of_resultOf {inside digits : List Char} (h : resultOf inside = .digits digits) :
    ∀ c ∈ digits, Text.isDigit c = true := by
  unfold resultOf at h
  split at h
  · cases h
  · dsimp only at h
    split at h
    · cases h
    · cases h
      intro c hc
      exact List.all_eq_true.mp List.all_takeWhile c (List.mem_reverse.mp hc)

/-! ## The number at the start of a token -/

/-- Digits stand at the start of a token, and a blank behind them. -/
def Numbered (token digits : List Char) : Prop :=
  digits ≠ [] ∧ (∀ c ∈ digits, Text.isDigit c = true) ∧
    ∃ blank rest, token = '{' :: (digits ++ blank :: rest) ∧ Text.isBlank blank = true

theorem quantityOf_eq_digits_iff_numbered {inside digits : List Char}
    (hdice : (quantityOf (inside ++ ['}'])).isDice = false) :
    quantityOf (inside ++ ['}']) = .digits digits ↔ Numbered ('{' :: inside ++ ['}']) digits := by
  have hnone : ∀ e : Dice.Expression, ¬ e.Starts inside := by
    intro e he
    rw [quantityOf_eq_dice_iff.mpr he] at hdice
    cases hdice
  rw [quantityOf_eq_digits_iff]
  constructor
  · rintro ⟨-, hne, hdigits, blank, rest, rfl, hblank⟩
    exact ⟨hne, hdigits, blank, rest ++ ['}'], by simp, hblank⟩
  · rintro ⟨hne, hdigits, blank, rest, htoken, hblank⟩
    have hinside : digits ++ blank :: rest = inside ++ ['}'] := by
      rw [List.cons_append, List.cons_inj_right] at htoken
      exact htoken.symm
    exact ⟨hnone, hne, hdigits, exists_blank hinside hblank⟩

/-! ## One placeholder -/

/-- The placeholder says what its token says, and its numbers are what that can come to. -/
structure RolledFrom (token : List Char) (p : Placeholder) : Prop extends ReadFrom token p where
  quantity : (outline token).quantity.AsQuantity p.quantity
  result : (outline token).resultPart.AsResult p.result

theorem rolledFrom_of_reaches {token : List Char} {p : Placeholder} (h : (ofToken token).Reaches (some p)) :
    RolledFrom token p := by
  obtain ⟨s, s', h⟩ := h
  have hread := (ofToken_ok h).1 p rfl
  unfold ofToken at h
  dsimp only at h
  rw [if_pos hread.kept] at h
  obtain ⟨quantity, t, hquantity, h⟩ := Roll.run_bind_ok_iff.mp h
  obtain ⟨result, u, hresult, h⟩ := Roll.run_bind_ok_iff.mp h
  rw [Roll.run_pure] at h
  cases h
  exact ⟨hread, Amount.asQuantity_of_run hquantity, Amount.asResult_of_run hresult⟩

namespace RolledFrom

variable {token inside : List Char} {p : Placeholder}

theorem normalize_entity (h : RolledFrom token p) : Name.normalize p.entity = p.entity := by
  rw [h.entity_eq]
  exact Name.normalize_eq_self fun c hc => Name.isKept_iff.mpr (.inl (isPlain_of_mem_entity hc))

theorem isDice_eq_false (h : RolledFrom token p) (hdice : p.quantityDice = "") :
    (outline token).quantity.isDice = false := by
  rw [← h.quantityDice_isEmpty, hdice]
  rfl

theorem of_bareRoll (h : RolledFrom token p) (hbare : p.entity = "") :
    p.quantityDice ≠ "" ∧ p.resultDice = "" ∧ p.result = none := by
  rw [h.entity_eq] at hbare
  have hpart : (outline token).resultPart = .absent := by
    unfold Outline.resultPart
    rw [if_pos (by simp [hbare])]
  have hresult := h.result
  rw [hpart] at hresult
  refine ⟨fun hdice => ?_, ?_, ?_⟩
  · have hkept := h.kept
    unfold Outline.isKept at hkept
    rw [h.isDice_eq_false hdice, hbare] at hkept
    cases hkept
  · rw [h.resultDice_eq, hpart]
    rfl
  · cases hresult with
    | absent hnone => exact hnone

theorem count?_of_numbered (h : RolledFrom ('{' :: inside ++ ['}']) p) (hdice : p.quantityDice = "")
    {digits : List Char} (hdigits : Numbered ('{' :: inside ++ ['}']) digits) :
    Text.count? digits = some p.quantity := by
  have hwritten : (outline ('{' :: inside ++ ['}'])).quantity = .digits digits :=
    (quantityOf_eq_digits_iff_numbered (h.isDice_eq_false hdice)).mpr hdigits
  have hquantity := h.quantity
  rw [hwritten] at hquantity
  cases hquantity with
  | digits hcount => exact hcount

theorem quantity_eq_one (h : RolledFrom ('{' :: inside ++ ['}']) p) (hdice : p.quantityDice = "")
    (hdigits : ∀ digits, ¬ Numbered ('{' :: inside ++ ['}']) digits) : p.quantity = 1 := by
  have hnone := h.isDice_eq_false hdice
  have hquantity := h.quantity
  generalize hwritten : (outline ('{' :: inside ++ ['}'])).quantity = a at hquantity
  cases hquantity with
  | absent hone => exact hone
  | digits => exact absurd ((quantityOf_eq_digits_iff_numbered hnone).mp hwritten) (hdigits _)
  | dice =>
    rw [hwritten] at hnone
    cases hnone

theorem exists_result (h : RolledFrom token p) (hdice : p.resultDice ≠ "") :
    ∃ n : Nat, n ≤ 0xFFFFFFFF ∧ p.result = some (n : Int) := by
  have hresult := h.result
  rw [h.resultDice_eq] at hdice
  generalize (outline token).resultPart = a at hresult hdice
  cases hresult with
  | absent => exact absurd rfl hdice
  | digits => exact absurd rfl hdice
  | dice hrolled => exact hrolled

theorem nonneg_result (h : RolledFrom token p) {n : Int} (hn : p.result = some n) : 0 ≤ n := by
  have hresult := h.result
  rw [hn] at hresult
  generalize hpart : (outline token).resultPart = a at hresult
  cases hresult with
  | absent hnone => cases hnone
  | digits hread =>
    unfold Outline.resultPart at hpart
    split at hpart
    · cases hpart
    · exact Text.nonneg_of_integer? (isDigit_of_resultOf hpart) hread
  | dice hrolled =>
    obtain ⟨m, -, hm⟩ := hrolled
    obtain rfl := Option.some.inj hm
    omega

end RolledFrom

/-! ## All placeholders -/

/-- What is true of every placeholder that is read. -/
structure WellFormed (p : Placeholder) : Prop where
  token : ∃ inside, p.token.toList = '{' :: inside ++ ['}'] ∧ '}' ∉ inside
  entity_plain : ∀ c ∈ p.entity.toList, Name.isPlain c = true
  normalize_entity : Name.normalize p.entity = p.entity
  bareRoll : p.entity = "" → p.quantityDice ≠ "" ∧ p.resultDice = "" ∧ p.result = none
  quantity_le : p.quantity ≤ 0xFFFFFFFF
  numbered : p.quantityDice = "" → ∀ digits, Numbered p.token.toList digits → Text.count? digits = some p.quantity
  unnumbered : p.quantityDice = "" → (∀ digits, ¬ Numbered p.token.toList digits) → p.quantity = 1
  rolled : p.resultDice ≠ "" → ∃ n : Nat, n ≤ 0xFFFFFFFF ∧ p.result = some (n : Int)
  nonneg : ∀ n, p.result = some n → 0 ≤ n

theorem RolledFrom.wellFormed {token : List Char} {p : Placeholder} (h : RolledFrom token p)
    (htoken : token ∈ tokens text) : p.WellFormed := by
  obtain ⟨inside, rfl, hclose⟩ := braced_of_mem_tokens htoken
  have htext : p.token.toList = '{' :: inside ++ ['}'] := by
    rw [h.token_eq, String.toList_ofList]
  constructor
  · exact ⟨inside, htext, hclose⟩
  · rw [h.entity_eq]
    exact fun c hc => isPlain_of_mem_entity hc
  · exact h.normalize_entity
  · exact h.of_bareRoll
  · exact h.quantity.le
  · rw [htext]
    exact fun hdice digits hdigits => h.count?_of_numbered hdice hdigits
  · rw [htext]
    exact h.quantity_eq_one
  · exact h.exists_result
  · exact fun n hn => h.nonneg_result hn

theorem map_token {ts : List (List Char)} {ps : List Placeholder} (h : List.Forall₂ ReadFrom ts ps) :
    ps.map (·.token.toList) = ts := by
  induction h with
  | nil => rfl
  | cons hread _ ih => rw [List.map_cons, ih, hread.token_eq, String.toList_ofList]

/--
The tokens of the placeholders that are read are those that are kept. They stand in the text one behind another, and all
placeholders are well formed.
-/
theorem parse_wellFormed {text : String} {ps : List Placeholder} (h : (parse text).run s = some (.ok ps, s')) :
    ps.map (·.token.toList) = keptTokens text.toList ∧ StandIn (ps.map (·.token.toList)) text.toList ∧
      ∀ p ∈ ps, p.WellFormed := by
  have htokens := map_token (parse_ok h)
  refine ⟨htokens, ?_, fun p hp => ?_⟩
  · rw [htokens]
    exact standIn_keptTokens text.toList
  · obtain ⟨token, htoken, hreaches⟩ := exists_token (parse_reaches h) hp
    exact (rolledFrom_of_reaches hreaches).wellFormed (List.mem_of_mem_filter htoken)

def caravan : String :=
  "\x7b5\x7d \x7b12 Camel (Old) 1d6+2\x7d, \x7b2d4 \x7bmule\x7d, \x7bcamel 7\x7d\x7bcamel 7\x7d \x7b1d20\x7d \x7b"

def beasts : List Placeholder := [
  ⟨"\x7b12 Camel (Old) 1d6+2\x7d", "", "camel_old", "1d6+2", 12, some 3⟩,
  ⟨"\x7b2d4 \x7bmule\x7d", "2d4", "mule", "", 2, none⟩,
  ⟨"\x7bcamel 7\x7d", "", "camel", "", 1, some 7⟩,
  ⟨"\x7bcamel 7\x7d", "", "camel", "", 1, some 7⟩,
  ⟨"\x7b1d20\x7d", "1d20", "", "", 1, none⟩]

theorem parse_wellFormed_caravan :
    ∃ s', (parse caravan).run (.ofStream (fun _ => 0) 9) = some (.ok beasts, s') ∧
      beasts.map (·.token.toList) = keptTokens caravan.toList ∧
      StandIn (beasts.map (·.token.toList)) caravan.toList ∧ ∀ p ∈ beasts, p.WellFormed := by
  have hvalue : (((parse caravan).run (.ofStream (fun _ => 0) 9)).map fun p => p.1.toOption.map id) =
      some (some beasts) := by
    decide +kernel
  obtain ⟨ps, s', hrun, rfl⟩ := Roll.exists_run_of_map hvalue
  exact ⟨s', hrun, parse_wellFormed hrun⟩

end Placeholder

end Tabletop
