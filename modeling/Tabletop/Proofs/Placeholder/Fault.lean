import Tabletop.Proofs.Dice.Longest
import Tabletop.Proofs.Expansion.Completion

/-!
# When reading fails

What is wrong with a token stands written in it: dice at its start or its end, or the digits in front of its name,
whose numbers are bad. A text is read just if none of its tokens has such a fault.
-/

namespace Tabletop

open Tabletop.Random

namespace Placeholder

open Dice (Expression)
open Dice.Expression (before?_eq_some_iff dice?_eq_none_iff dropWhile_run follows_close foreign_close
  leading?_eq_none_iff leading?_eq_some_iff parse_text starts_append_foreign takeWhile_run)

/-! ## Faults -/

/-- What is written at the start of a token, between the braces of which `inside` stands, gives no quantity. -/
inductive QuantityFault (inside : List Char) : List Char → Prop where
  | dice {e : Expression} (h : e.Starts inside) (hbad : e.Bad) : QuantityFault inside e.text
  | digits {digits rest : List Char} {blank : Char} (hinside : inside = digits ++ blank :: rest) (hne : digits ≠ [])
      (hdigits : ∀ c ∈ digits, Text.isDigit c = true) (hblank : Text.isBlank blank = true)
      (hdice : ∀ e : Expression, ¬ e.Starts inside) (hname : nameOf (inside ++ ['}']) ≠ "")
      (hbad : ¬ ∃ n < 0x100000000, Text.digits? digits = some n) : QuantityFault inside digits

/-- The dice at the end of a token with a name give no result. Digits there are never a fault. -/
inductive ResultFault (inside : List Char) : List Char → Prop where
  | dice {e : Expression} (hname : nameOf (inside ++ ['}']) ≠ "") (h : e.Ends inside) (hbad : e.Bad) :
      ResultFault inside e.text

/-- The first fault of a token, its quantity before its result. -/
def Fault (token written : List Char) : Prop :=
  ∃ inside, token = '{' :: inside ++ ['}'] ∧
    (QuantityFault inside written ∨ (∀ w, ¬ QuantityFault inside w) ∧ ResultFault inside written)

/-- The first fault of some tokens. -/
def FirstFault (ts : List (List Char)) (written : List Char) : Prop :=
  ∃ before token after, ts = before ++ token :: after ∧ (∀ t ∈ before, ∀ w, ¬ Fault t w) ∧ Fault token written

/-! ## The parts that may be faulty -/

variable {inside digits : List Char} {e : Expression}

theorem leading?_inside_eq_some_iff :
    (Expression.leading? (inside ++ ['}'])).map Prod.fst = some e ↔ e.Starts inside := by
  rw [leading?_eq_some_iff, starts_append_foreign foreign_close]

theorem leading?_inside_eq_none_iff :
    Expression.leading? (inside ++ ['}']) = none ↔ ∀ e : Expression, ¬ e.Starts inside := by
  rw [leading?_eq_none_iff]
  simp only [starts_append_foreign foreign_close]

theorem quantityOf_eq_dice_iff : quantityOf (inside ++ ['}']) = .dice e ↔ e.Starts inside := by
  rw [← leading?_inside_eq_some_iff]
  unfold quantityOf
  split
  next found rest hread => simp [hread]
  next hnone =>
    dsimp only
    split
    · split <;> simp [hnone]
    · simp [hnone]

theorem exists_blank {blank : Char} {rest : List Char} (h : digits ++ blank :: rest = inside ++ ['}'])
    (hblank : Text.isBlank blank = true) :
    ∃ blank rest, inside = digits ++ blank :: rest ∧ Text.isBlank blank = true := by
  rcases List.append_eq_append_iff.mp h with ⟨behind, hinside, hrest⟩ | ⟨behind, -, hclose⟩
  · cases behind with
    | nil =>
      obtain ⟨rfl, -⟩ := List.cons.inj hrest
      exact absurd hblank (by decide)
    | cons c behind =>
      obtain ⟨rfl, -⟩ := List.cons.inj hrest
      exact ⟨blank, behind, hinside, hblank⟩
  · have hmem : blank ∈ ['}'] := by simp [hclose]
    obtain rfl := List.mem_singleton.mp hmem
    exact absurd hblank (by decide)

theorem quantityOf_eq_digits_iff :
    quantityOf (inside ++ ['}']) = .digits digits ↔
      (∀ e : Expression, ¬ e.Starts inside) ∧ digits ≠ [] ∧ (∀ c ∈ digits, Text.isDigit c = true) ∧
        ∃ blank rest, inside = digits ++ blank :: rest ∧ Text.isBlank blank = true := by
  constructor
  · intro h
    unfold quantityOf at h
    split at h
    · cases h
    next hnone =>
      dsimp only at h
      split at h
      next blank rest hdrop =>
        split at h
        next hkept =>
          obtain rfl := Amount.digits.inj h
          simp only [Bool.and_eq_true, Bool.not_eq_true', List.isEmpty_eq_false_iff] at hkept
          obtain ⟨hne, hblank⟩ := hkept
          refine ⟨leading?_inside_eq_none_iff.mp hnone, hne, List.all_eq_true.mp List.all_takeWhile, ?_⟩
          have hinside := List.takeWhile_append_dropWhile (p := Text.isDigit) (l := inside ++ ['}'])
          rw [hdrop] at hinside
          exact exists_blank hinside hblank
        next => cases h
      next => cases h
  · rintro ⟨hdice, hne, hdigits, blank, rest, rfl, hblank⟩
    have hborder : ∀ c ∈ (blank :: (rest ++ ['}'])).head?, Text.isDigit c = false := by
      intro c hc
      obtain rfl := Option.some.inj hc
      exact Text.isDigit_of_isBlank hblank
    unfold quantityOf
    rw [leading?_inside_eq_none_iff.mpr hdice]
    dsimp only
    rw [List.append_assoc, List.cons_append, takeWhile_run hborder hdigits, dropWhile_run hborder hdigits]
    simp [hne, hblank]

theorem resultOf_eq_dice_iff : resultOf (inside ++ ['}']) = .dice e ↔ e.Ends inside := by
  rw [← before?_eq_some_iff follows_close]
  unfold resultOf
  split
  next found hfound => simp [hfound]
  next hnone =>
    dsimp only
    split <;> simp [hnone]

/-! ## The faults that reading finds -/

theorem fault?_eq_some_iff {err : Dice.Error} (h : e.Formed) :
    e.fault? = some err ↔ e.Bad ∧ err = .malformed (String.ofList e.text) := by
  rw [← dice?_eq_none_iff h]
  unfold Expression.fault?
  cases e.dice? <;> simp [eq_comm]

theorem quantityFault?_eq_some_iff {err : Dice.Error} :
    (outline ('{' :: inside ++ ['}'])).isKept = true ∧
        (outline ('{' :: inside ++ ['}'])).quantity.quantityFault? = some err ↔
      ∃ written, QuantityFault inside written ∧ err = .malformed (String.ofList written) := by
  rw [outline_braced]
  simp only [Outline.isKept, Bool.or_eq_true, Bool.not_eq_true', String.isEmpty_eq_false_iff]
  constructor
  · rintro ⟨hkept, hfault⟩
    cases hquantity : quantityOf (inside ++ ['}']) with
    | absent => simp [hquantity, Amount.quantityFault?] at hfault
    | digits cs =>
      obtain ⟨hdice, hne, hdigits, blank, rest, hinside, hblank⟩ := quantityOf_eq_digits_iff.mp hquantity
      have hname : nameOf (inside ++ ['}']) ≠ "" := hkept.resolve_left (by simp [hquantity, Amount.isDice])
      rw [hquantity, Amount.quantityFault?] at hfault
      split at hfault
      · cases hfault
      next hcount =>
        rw [Option.not_isSome_iff_eq_none, Text.count?_eq_none hdigits] at hcount
        exact ⟨cs, .digits hinside hne hdigits hblank hdice hname hcount, (Option.some.inj hfault).symm⟩
    | dice e =>
      have hstarts := quantityOf_eq_dice_iff.mp hquantity
      rw [hquantity, Amount.quantityFault?, fault?_eq_some_iff hstarts.formed] at hfault
      exact ⟨e.text, .dice hstarts hfault.1, hfault.2⟩
  · rintro ⟨written, hfault, rfl⟩
    cases hfault with
    | dice hstarts hbad =>
      rw [quantityOf_eq_dice_iff.mpr hstarts, Amount.quantityFault?, fault?_eq_some_iff hstarts.formed]
      exact ⟨.inl rfl, hbad, rfl⟩
    | digits hinside hne hdigits hblank hdice hname hbad =>
      rw [quantityOf_eq_digits_iff.mpr ⟨hdice, hne, hdigits, _, _, hinside, hblank⟩, Amount.quantityFault?,
        (Text.count?_eq_none hdigits).mpr hbad]
      exact ⟨.inr hname, rfl⟩

theorem resultFault?_eq_some_iff {err : Dice.Error} :
    (outline ('{' :: inside ++ ['}'])).resultPart.resultFault? = some err ↔
      ∃ written, ResultFault inside written ∧ err = .malformed (String.ofList written) := by
  rw [outline_braced]
  unfold Outline.resultPart
  dsimp only
  constructor
  · intro hfault
    split at hfault
    · cases hfault
    next hname =>
      cases hresult : resultOf (inside ++ ['}']) with
      | absent => simp [hresult, Amount.resultFault?] at hfault
      | digits cs => simp [hresult, Amount.resultFault?] at hfault
      | dice e =>
        have hends := resultOf_eq_dice_iff.mp hresult
        rw [hresult, Amount.resultFault?, fault?_eq_some_iff hends.formed] at hfault
        exact ⟨e.text, .dice (by simpa using hname) hends hfault.1, hfault.2⟩
  · rintro ⟨written, ⟨hname, hends, hbad⟩, rfl⟩
    rw [if_neg (by simpa using hname), resultOf_eq_dice_iff.mpr hends, Amount.resultFault?,
      fault?_eq_some_iff hends.formed]
    exact ⟨hbad, rfl⟩

theorem fault_braced {written : List Char} :
    Fault ('{' :: inside ++ ['}']) written ↔
      QuantityFault inside written ∨ (∀ w, ¬ QuantityFault inside w) ∧ ResultFault inside written := by
  constructor
  · rintro ⟨inside', htoken, h⟩
    rw [List.append_cancel_right_eq, List.cons_inj_right] at htoken
    rwa [htoken]
  · intro h
    exact ⟨inside, rfl, h⟩

/-- Reading a token finds the first fault that is written in it. -/
theorem tokenFault?_eq_some_iff {token text : List Char} (htoken : token ∈ tokens text) {err : Dice.Error} :
    tokenFault? token = some err ↔ ∃ written, Fault token written ∧ err = .malformed (String.ofList written) := by
  obtain ⟨inside, rfl, -⟩ := braced_of_mem_tokens htoken
  simp only [fault_braced]
  unfold tokenFault?
  dsimp only
  constructor
  · intro h
    split at h
    next hkept =>
      rcases Option.or_eq_some_iff.mp h with hquantity | ⟨hquantity, hresult⟩
      · obtain ⟨written, hfault, herr⟩ := quantityFault?_eq_some_iff.mp ⟨hkept, hquantity⟩
        exact ⟨written, .inl hfault, herr⟩
      · obtain ⟨written, hfault, herr⟩ := resultFault?_eq_some_iff.mp hresult
        refine ⟨written, .inr ⟨fun w hw => ?_, hfault⟩, herr⟩
        rw [(quantityFault?_eq_some_iff.mpr ⟨w, hw, rfl⟩).2] at hquantity
        cases hquantity
    next => cases h
  · rintro ⟨written, hfault | ⟨hnone, hfault⟩, rfl⟩
    · obtain ⟨hkept, hquantity⟩ := quantityFault?_eq_some_iff.mpr ⟨written, hfault, rfl⟩
      rw [if_pos hkept, hquantity]
      rfl
    · have hresult := resultFault?_eq_some_iff.mpr ⟨written, hfault, rfl⟩
      have hkept : (outline ('{' :: inside ++ ['}'])).isKept = true := by
        obtain ⟨hname, -, -⟩ := hfault
        rw [outline_braced]
        simp [Outline.isKept, hname]
      have hquantity : (outline ('{' :: inside ++ ['}'])).quantity.quantityFault? = none := by
        rw [Option.eq_none_iff_forall_ne_some]
        intro err herr
        obtain ⟨w, hw, -⟩ := quantityFault?_eq_some_iff.mp ⟨hkept, herr⟩
        exact hnone w hw
      rw [if_pos hkept, hquantity, hresult]
      rfl

theorem tokenFault?_eq_none_iff {token text : List Char} (htoken : token ∈ tokens text) :
    tokenFault? token = none ↔ ∀ written, ¬ Fault token written := by
  rw [Option.eq_none_iff_forall_ne_some]
  simp only [ne_eq, tokenFault?_eq_some_iff htoken, not_exists, not_and]
  exact ⟨fun h written hfault => h _ written hfault rfl, fun h err written hfault _ => h written hfault⟩

theorem findSome?_tokenFault? {text : List Char} {err : Dice.Error} :
    (tokens text).findSome? tokenFault? = some err ↔
      ∃ written, FirstFault (tokens text) written ∧ err = .malformed (String.ofList written) := by
  rw [List.findSome?_eq_some_iff]
  constructor
  · rintro ⟨before, token, after, hsplit, htoken, hbefore⟩
    have hmem {t : List Char} (ht : t ∈ before ++ token :: after) : t ∈ tokens text := by rwa [hsplit]
    obtain ⟨written, hfault, herr⟩ := (tokenFault?_eq_some_iff (hmem (by simp))).mp htoken
    refine ⟨written, ⟨before, token, after, hsplit, fun t ht => ?_, hfault⟩, herr⟩
    exact (tokenFault?_eq_none_iff (hmem (List.mem_append_left _ ht))).mp (hbefore t ht)
  · rintro ⟨written, ⟨before, token, after, hsplit, hbefore, hfault⟩, herr⟩
    have hmem {t : List Char} (ht : t ∈ before ++ token :: after) : t ∈ tokens text := by rwa [hsplit]
    refine ⟨before, token, after, hsplit, ?_, fun t ht => ?_⟩
    · exact (tokenFault?_eq_some_iff (hmem (by simp))).mpr ⟨written, hfault, herr⟩
    · exact (tokenFault?_eq_none_iff (hmem (List.mem_append_left _ ht))).mpr (hbefore t ht)

theorem exists_firstFault_iff {text : List Char} :
    (∃ written, FirstFault (tokens text) written) ↔ ∃ token ∈ tokens text, ∃ written, Fault token written := by
  constructor
  · rintro ⟨written, before, token, after, hsplit, -, hfault⟩
    exact ⟨token, by simp [hsplit], written, hfault⟩
  · rintro ⟨token, htoken, written, hfault⟩
    cases hfirst : (tokens text).findSome? tokenFault? with
    | none =>
      have hnone := List.findSome?_eq_none_iff.mp hfirst token htoken
      exact absurd hfault ((tokenFault?_eq_none_iff htoken).mp hnone written)
    | some err =>
      obtain ⟨written, hfault, -⟩ := findSome?_tokenFault?.mp hfirst
      exact ⟨written, hfault⟩

/-! ## Reading -/

theorem rollWritten_eq_evaluate (h : e.Formed) : rollWritten e = Dice.evaluate (String.ofList e.text) := by
  unfold rollWritten Dice.evaluate
  rw [parse_text h]
  cases e.dice? <;> rfl

/--
Reading a text fails just if one of its tokens has a fault, with what is written at the first of them, and no roll makes
a difference to that.
-/
theorem parse_error_iff (text : String) :
    (∀ word, (∀ d ∈ writtenDice text, d.roll.Completes word) → (parse text).Completes word) ∧
    (∀ s result s', (parse text).run s = some (result, s') →
      ((∃ err, result = .error err) ↔ ∃ token ∈ tokens text.toList, ∃ written, Fault token written) ∧
      ∀ err, result = .error err ↔
        ∃ written, FirstFault (tokens text.toList) written ∧ err = .malformed (String.ofList written)) ∧
    ∀ e : Expression, e.Formed →
      rollWritten e = Dice.evaluate (String.ofList e.text) ∧
      (Dice.parse (String.ofList e.text) = .error (.malformed (String.ofList e.text)) ↔ e.Bad) := by
  refine ⟨fun word hword => completes_ofTokens hword, fun s result s' hrun => ?_, fun e h => ⟨?_, ?_⟩⟩
  · have hfault := hasFault_parse text s result s' hrun
    have herror (err : Dice.Error) : result = .error err ↔
        ∃ written, FirstFault (tokens text.toList) written ∧ err = .malformed (String.ofList written) := by
      rw [← findSome?_tokenFault?]
      cases result with
      | ok ps =>
        rw [show _ = none from hfault]
        simp
      | error found =>
        rw [show _ = some found from hfault]
        simp
    refine ⟨?_, herror⟩
    rw [← exists_firstFault_iff]
    constructor
    · rintro ⟨err, h⟩
      obtain ⟨written, hfirst, -⟩ := (herror err).mp h
      exact ⟨written, hfirst⟩
    · rintro ⟨written, hfirst⟩
      exact ⟨_, (herror _).mpr ⟨written, hfirst, rfl⟩⟩
  · exact rollWritten_eq_evaluate h
  · rw [← dice?_eq_none_iff h, parse_text h]
    cases e.dice? <;> simp

def muster : String := "\x7b99999999999 \x7d \x7b2d4 orc 1d0\x7d \x7b\u0663 orc\x7d"

theorem parse_error_iff_muster :
    (parse muster).Completes (fun _ => 0) ∧
      (∃ s', (parse muster).run (.ofStream (fun _ => 0) 9) = some (.error (.malformed "1d0"), s')) ∧
      FirstFault (tokens muster.toList) ['1', 'd', '0'] ∧
      rollWritten ⟨['1'], ['0'], false, []⟩ = Dice.evaluate "1d0" ∧ (Expression.mk ['1'] ['0'] false []).Bad := by
  obtain ⟨hcompletes, hfails, hagain⟩ := parse_error_iff muster
  have hvalue : (((parse muster).run (.ofStream (fun _ => 0) 9)).map fun p =>
      match p.1 with
      | .ok _ => none
      | .error err => some err) = some (some (.malformed "1d0")) := by
    decide +kernel
  have hformed : (Expression.mk ['1'] ['0'] false []).Formed :=
    ⟨List.all_eq_true.mp (by decide), List.all_eq_true.mp (by decide), by decide, .absent⟩
  obtain ⟨hrolled, hbad⟩ := hagain _ hformed
  obtain ⟨⟨result, s'⟩, hrun, hresult⟩ := Option.map_eq_some_iff.mp hvalue
  cases result with
  | ok ps => cases hresult
  | error err =>
    obtain rfl := Option.some.inj hresult
    obtain ⟨written, hfirst, herr⟩ := ((hfails _ _ s' hrun).2 _).mp rfl
    have hwritten : written = ['1', 'd', '0'] := by
      rw [← String.ofList_inj, ← Dice.Error.malformed.inj herr]
    rw [hwritten] at hfirst
    exact ⟨hcompletes _ fun d _ => lively_zero.roll d, ⟨s', hrun⟩, hfirst, hrolled, hbad.mp (by decide)⟩

end Placeholder

end Tabletop
