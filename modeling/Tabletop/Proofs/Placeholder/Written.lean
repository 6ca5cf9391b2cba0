import Tabletop.Proofs.Dice.Expression
import Tabletop.Proofs.Placeholder.Reading

/-!
# Written tokens

Tokens put together from a name, what stands in front of it and what stands behind it. Each is read as the
parts it was put together from, though a name may look like dice and the name run reaches over blanks.
-/

namespace Tabletop

open Tabletop.Random

namespace Placeholder

open Dice (Expression)
open Dice.Expression (before?_append_blank before?_eq_none before?_text dropWhile_border dropWhile_run
  follows_blank follows_close isDigit_of_digits? leading?_of_ne leading?_text takeWhile_border takeWhile_run)

/-! ## Parts -/

/-- What stands in front of the name: a number of 32 bits or dice, and a blank. -/
inductive Lead where
  | nothing
  | number (n : Nat) (h : n < 0x100000000)
  | dice (e : Expression) (d : Dice) (h : e.Writes d)

/-- What stands behind the name: a blank, and a number of 64 bits or dice with their count. -/
inductive Trail where
  | nothing
  | number (n : Nat) (h : n < 0x8000000000000000)
  | dice (e : Expression) (d : Dice) (h : e.Writes d) (hcount : e.count ≠ [])

namespace Lead

def text : Lead → String
  | nothing => ""
  | number n _ => toString n ++ " "
  | dice e _ _ => String.ofList e.text ++ " "

def diceText : Lead → String
  | dice e _ _ => String.ofList e.text
  | _ => ""

/-- The quantity that is asked for. -/
def quantity : Lead → Draw Nat
  | nothing => pure 1
  | number n _ => pure n
  | dice _ d _ => d.roll

def amount : Lead → Amount
  | nothing => .absent
  | number n _ => .digits (toString n).toList
  | dice e _ _ => .dice e

theorem diceText_amount (lead : Lead) : lead.amount.diceText = lead.diceText := by
  cases lead <;> rfl

theorem quantity_amount (lead : Lead) : lead.amount.quantity = liftM lead.quantity := by
  cases lead with
  | nothing => rfl
  | number n h =>
    simp only [amount, Amount.quantity, Text.count?_of_digits? (Text.digits?_toString n) h, quantity, liftM_pure]
  | dice e d h => simp only [amount, Amount.quantity, rollWritten, h.dice?, quantity]

end Lead

namespace Trail

def text : Trail → String
  | nothing => ""
  | number n _ => " " ++ toString n
  | dice e _ _ _ => " " ++ String.ofList e.text

def diceText : Trail → String
  | dice e _ _ _ => String.ofList e.text
  | _ => ""

/-- The result that is asked for. -/
def result : Trail → Draw (Option Int)
  | nothing => pure none
  | number n _ => pure (some n)
  | dice _ d _ _ => do return some (← d.roll : Nat)

def amount : Trail → Amount
  | nothing => .absent
  | number n _ => .digits (toString n).toList
  | dice e _ _ _ => .dice e

theorem diceText_amount (trail : Trail) : trail.amount.diceText = trail.diceText := by
  cases trail <;> rfl

theorem result_amount (trail : Trail) : trail.amount.result = liftM trail.result := by
  cases trail with
  | nothing => rfl
  | number n h =>
    have hrange : Text.InRange (n : Int) := by
      unfold Text.InRange
      omega
    simp only [amount, Amount.result, result, liftM_pure,
      Text.integer?_eq_some.mpr ⟨Text.signed?_of_digits? (Text.digits?_toString n), hrange⟩]
  | dice e d h => simp only [amount, Amount.result, rollWritten, h.dice?, result, liftM_bind, liftM_pure]

end Trail

/-- A token of its parts. -/
def written (lead : Lead) (name : String) (trail : Trail) : String :=
  "\x7b" ++ lead.text ++ name ++ trail.text ++ "\x7d"

/-! ## What follows a name -/

theorem isNameChar_of_isAsciiDigit {c : Char} (h : Text.isAsciiDigit c = true) : isNameChar c = false := by
  rw [Bool.eq_false_iff]
  intro hname
  rw [isAsciiDigit_of_isNameChar hname] at h
  cases h

section Name

variable {name tail : List Char} (hplain : ∀ c ∈ name, Name.isPlain c = true)
  (htail : ∀ c ∈ tail.head?, Text.isDigit c = false)
include hplain htail

theorem head_name_append : ∀ c ∈ (name ++ tail).head?, Text.isDigit c = false := by
  cases name with
  | nil => exact htail
  | cons c name =>
    intro d hd
    obtain rfl := Option.some.inj hd
    exact isDigit_of_isPlain (hplain c List.mem_cons_self)

theorem leading?_name (hne : name ≠ []) : Expression.leading? (name ++ tail) = none := by
  obtain ⟨c, rest, rfl⟩ := List.exists_cons_of_ne_nil hne
  have hdrop : (c :: rest ++ tail).dropWhile Text.isDigit = c :: rest ++ tail :=
    dropWhile_border (head_name_append hplain htail)
  have hsides : (rest ++ tail).takeWhile Text.isDigit = [] :=
    takeWhile_border (head_name_append (fun d hd => hplain d (List.mem_cons_of_mem c hd)) htail)
  unfold Expression.leading?
  rw [hdrop]
  split
  next behind heq =>
    obtain ⟨-, rfl⟩ := List.cons.inj heq
    simp [hsides]
  next => rfl

end Name

namespace Trail

theorem head_text (trail : Trail) : ∀ c ∈ (trail.text.toList ++ ['}']).head?, Text.isDigit c = false := by
  intro c hc
  cases trail <;> simp [text] at hc <;> subst hc <;> decide

theorem takeWhile_text (trail : Trail) :
    (trail.text.toList ++ ['}']).takeWhile isNameChar = [] ∨
      (trail.text.toList ++ ['}']).takeWhile isNameChar = [' '] := by
  have hdigits {digits : List Char} (rest : List Char) (hne : digits ≠ [])
      (hall : ∀ c ∈ digits, Text.isAsciiDigit c = true) :
      (' ' :: (digits ++ rest)).takeWhile isNameChar = [' '] := by
    obtain ⟨c, digits, rfl⟩ := List.exists_cons_of_ne_nil hne
    have hc := isNameChar_of_isAsciiDigit (hall c List.mem_cons_self)
    rw [List.takeWhile_cons_of_pos (by decide), List.cons_append, List.takeWhile_cons_of_neg (by simp [hc])]
  cases trail with
  | nothing => exact .inl (by decide)
  | number n h =>
    have := hdigits ['}'] (Text.ne_nil_of_digits? (Text.digits?_toString n)) fun _ => Text.isAsciiDigit_of_mem_toString
    exact .inr (by simpa [text] using this)
  | dice e d h hcount =>
    have hdigits := hdigits ('d' :: e.sides ++ (if e.exploding then ['x'] else []) ++ e.modifier ++ ['}']) hcount
      (Text.isAsciiDigit_of_digits? (h.count.resolve_left fun hnone => hcount hnone.1))
    exact .inr (by simpa [text, Expression.text] using hdigits)

end Trail

/-! ## The parts that are read -/

theorem nameRun_digits {digits : List Char} (rest : List Char) (hne : digits ≠ [])
    (hall : ∀ c ∈ digits, Text.isAsciiDigit c = true) (atBorder : Bool) :
    nameRun atBorder (digits ++ rest) = nameRun false rest := by
  induction digits generalizing atBorder with
  | nil => exact absurd rfl hne
  | cons c digits ih =>
    have hc := hall c List.mem_cons_self
    have hname := isNameChar_of_isAsciiDigit hc
    have hblank := Name.isBlank_of_isAsciiDigit hc
    have hbrace : c ≠ '{' := by
      rintro rfl
      exact absurd hc (by decide)
    have hstep : nameRun atBorder (c :: digits ++ rest) = nameRun false (digits ++ rest) := by
      simp [nameRun, hname, hblank, hbrace]
    rw [hstep]
    by_cases hdigits : digits = []
    · rw [hdigits, List.nil_append]
    · exact ih hdigits (fun d hd => hall d (List.mem_cons_of_mem c hd)) false

theorem nameRun_blank (rest : List Char) : nameRun false (' ' :: rest) = nameRun true rest := by
  simp [nameRun, show Text.isBlank ' ' = true by decide]

theorem before?_lead (lead : Lead) (behind : List Char) :
    Expression.before? ['}'] (lead.text.toList ++ behind) = Expression.before? ['}'] behind := by
  cases lead with
  | nothing => simp [Lead.text]
  | number n h => simpa [Lead.text] using before?_append_blank (toString n).toList behind
  | dice e d h => simpa [Lead.text] using before?_append_blank e.text behind

theorem Lead.toList_number {n : Nat} {h : n < 0x100000000} (rest : List Char) :
    (Lead.number n h).text.toList ++ rest = (toString n).toList ++ ' ' :: rest := by
  simp [text]

theorem Lead.toList_dice {e : Expression} {d : Dice} {h : e.Writes d} (rest : List Char) :
    (Lead.dice e d h).text.toList ++ rest = e.text ++ ' ' :: rest := by
  simp [text]

/-- The dice that are read in front of a name, and what is left behind them. -/
def Lead.read? (lead : Lead) (rest : List Char) : Option (Expression × List Char) :=
  match lead with
  | dice e _ _ => some (e, ' ' :: rest)
  | _ => none

theorem resultOf_digits {front digits : List Char} (hdice : Expression.before? ['}'] (front ++ digits ++ ['}']) = none)
    (hdigits : ∀ c ∈ digits, Text.isDigit c = true) (hfront : ∀ c ∈ front.getLast?, Text.isDigit c = false) :
    resultOf (front ++ digits ++ ['}']) = if digits.isEmpty then .absent else .digits digits := by
  have hlast : ((front ++ digits ++ ['}']).dropLast.reverse.takeWhile Text.isDigit).reverse = digits := by
    rw [List.dropLast_concat, List.reverse_append, takeWhile_run (by simpa using hfront) (by simpa using hdigits),
      List.reverse_reverse]
  simp only [resultOf, hdice, hlast]

theorem resultOf_number (front : List Char) (n : Nat) :
    resultOf (front ++ [' '] ++ (toString n).toList ++ ['}']) = .digits (toString n).toList := by
  -- There are no dice in a number, and those in front of the blank do not reach over it.
  have hd : 'd' ∉ (toString n).toList ++ ['}'] := by
    rw [List.mem_append, not_or]
    exact ⟨Text.not_mem_toString_nat (by decide) n, by decide⟩
  have hdice : Expression.before? ['}'] (front ++ [' '] ++ (toString n).toList ++ ['}']) = none := by
    have hblank := before?_append_blank front ((toString n).toList ++ ['}'])
    rw [before?_eq_none _ (.inl hd)] at hblank
    simpa using hblank
  have hfront : ∀ c ∈ (front ++ [' ']).getLast?, Text.isDigit c = false := by
    intro c hc
    rw [List.getLast?_concat] at hc
    obtain rfl := Option.some.inj hc
    decide
  rw [resultOf_digits hdice (isDigit_of_digits? (Text.digits?_toString n)) hfront]
  exact if_neg (by simp)

theorem resultOf_dice (front : List Char) {e : Expression} (h : e.Formed) :
    resultOf (front ++ ' ' :: (e.text ++ ['}'])) = .dice e := by
  unfold resultOf
  rw [before?_append_blank, before?_text h follows_close]

section Parts

variable {name : List Char} (hplain : ∀ c ∈ name, Name.isPlain c = true) (hname : name ≠ [])
include hplain hname

theorem leading?_written (lead : Lead) {tail : List Char} (htail : ∀ c ∈ tail.head?, Text.isDigit c = false) :
    Expression.leading? (lead.text.toList ++ (name ++ tail)) = lead.read? (name ++ tail) := by
  cases lead with
  | nothing => simpa [Lead.text, Lead.read?] using leading?_name hplain htail hname
  | number n h =>
    have hdigits := isDigit_of_digits? (Text.digits?_toString n)
    rw [Lead.toList_number]
    apply leading?_of_ne
    rw [dropWhile_run (fun c hc => (follows_blank _ c hc).1) hdigits]
    simp
  | dice e d h =>
    rw [Lead.toList_dice]
    exact leading?_text h.formed (follows_blank _)

theorem quantityOf_written (lead : Lead) {tail : List Char} (htail : ∀ c ∈ tail.head?, Text.isDigit c = false) :
    quantityOf (lead.text.toList ++ (name ++ tail)) = lead.amount := by
  unfold quantityOf
  rw [leading?_written hplain hname lead htail]
  cases lead with
  | nothing =>
    have hdigits : (name ++ tail).takeWhile Text.isDigit = [] :=
      takeWhile_border (head_name_append hplain htail)
    simp only [Lead.read?, Lead.text, String.toList_empty, List.nil_append, hdigits]
    split <;> rfl
  | number n h =>
    have hdigits := isDigit_of_digits? (Text.digits?_toString n)
    have hblank : ∀ c ∈ (' ' :: (name ++ tail)).head?, Text.isDigit c = false := fun c hc =>
      (follows_blank _ c hc).1
    have hne := Text.ne_nil_of_digits? (Text.digits?_toString n)
    simp only [Lead.read?, Lead.toList_number, takeWhile_run hblank hdigits, dropWhile_run hblank hdigits]
    rw [if_pos (by simpa [hne] using show Text.isBlank ' ' = true by decide)]
    rfl
  | dice e d h => rfl

theorem normalize_nameRun (trail : Trail) :
    Name.normalize (String.ofList (nameRun true (name ++ (trail.text.toList ++ ['}'])))) =
      String.ofList name := by
  have hall : ∀ c ∈ name, isNameChar c = true := fun c hc => isNameChar_of_isPlain (hplain c hc)
  have hrun : nameRun true (name ++ (trail.text.toList ++ ['}'])) =
      name ++ (trail.text.toList ++ ['}']).takeWhile isNameChar := by
    obtain ⟨c, rest, rfl⟩ := List.exists_cons_of_ne_nil hname
    rw [List.cons_append, nameRun, if_pos (by simp [hall c List.mem_cons_self]), ← List.cons_append,
      List.takeWhile_append_of_pos hall]
  have hself : Name.normalize (String.ofList name) = String.ofList name := by
    refine Name.normalize_eq_self fun c hc => Name.isKept_iff.mpr (.inl (hplain c ?_))
    rwa [String.toList_ofList] at hc
  rcases trail.takeWhile_text with htail | htail
  · rw [hrun, htail, List.append_nil, hself]
  · rw [hrun, htail, Name.normalize_append_blank, hself]

theorem nameOf_written (lead : Lead) (trail : Trail) :
    nameOf (lead.text.toList ++ (name ++ (trail.text.toList ++ ['}']))) = String.ofList name := by
  have hnormal := normalize_nameRun hplain hname trail
  unfold nameOf
  rw [leading?_written hplain hname lead trail.head_text]
  cases lead with
  | nothing => exact hnormal
  | number n h =>
    have hdigits : ∀ c ∈ (toString n).toList, Text.isAsciiDigit c = true := fun _ =>
      Text.isAsciiDigit_of_mem_toString
    simp only [Lead.read?]
    rw [Lead.toList_number, nameRun_digits _ (Text.ne_nil_of_digits? (Text.digits?_toString n)) hdigits,
      nameRun_blank, hnormal]
  | dice e d h =>
    simp only [Lead.read?]
    rw [nameRun_blank, hnormal]

theorem resultOf_name (lead : Lead) : resultOf (lead.text.toList ++ name ++ [] ++ ['}']) = .absent := by
  have hundigited : ∀ c ∈ name, Text.isDigit c = false := fun c hc => isDigit_of_isPlain (hplain c hc)
  have hdice : Expression.before? ['}'] (lead.text.toList ++ name ++ [] ++ ['}']) = none := by
    rw [List.append_nil, List.append_assoc, before?_lead]
    refine before?_eq_none _ (.inr fun c hc => ?_)
    rcases List.mem_append.mp hc with hc | hc
    · exact hundigited c hc
    · obtain rfl := List.mem_singleton.mp hc
      decide
  have hfront : ∀ c ∈ (lead.text.toList ++ name).getLast?, Text.isDigit c = false := by
    intro c hc
    rw [List.getLast?_append, List.getLast?_eq_some_getLast hname, Option.some_or] at hc
    obtain rfl := Option.some.inj hc
    exact hundigited _ (List.getLast_mem hname)
  rw [resultOf_digits hdice (by simp) hfront]
  rfl

theorem resultOf_written (lead : Lead) (trail : Trail) :
    resultOf (lead.text.toList ++ (name ++ (trail.text.toList ++ ['}']))) = trail.amount := by
  cases trail with
  | nothing => simpa [Trail.text, Trail.amount] using resultOf_name hplain hname lead
  | number n h => simpa [Trail.text, Trail.amount] using resultOf_number (lead.text.toList ++ name) n
  | dice e d h hcount => simpa [Trail.text, Trail.amount] using resultOf_dice (lead.text.toList ++ name) h.formed

theorem outline_written (lead : Lead) (trail : Trail) :
    outline ('{' :: (lead.text.toList ++ (name ++ (trail.text.toList ++ ['}'])))) =
      ⟨lead.amount, String.ofList name, trail.amount⟩ := by
  unfold outline
  dsimp only
  rw [List.drop_one, List.tail_cons, quantityOf_written hplain hname lead trail.head_text,
    nameOf_written hplain hname, resultOf_written hplain hname]

end Parts

/-! ## Reading a written token -/

theorem toList_written (lead : Lead) (name : String) (trail : Trail) :
    (written lead name trail).toList =
      '{' :: (lead.text.toList ++ (name.toList ++ (trail.text.toList ++ ['}']))) := by
  simp [written]

theorem not_mem_text {e : Expression} (h : e.Formed) : '}' ∉ e.text := fun hmem =>
  absurd (Dice.Expression.mem_text h hmem) (by decide)

theorem tokens_written (lead : Lead) {name : String} (trail : Trail)
    (hplain : ∀ c ∈ name.toList, Name.isPlain c = true) :
    tokens (written lead name trail).toList = [(written lead name trail).toList] := by
  have hlead : '}' ∉ lead.text.toList := by
    cases lead with
    | nothing => simp [Lead.text]
    | number n h => simpa [Lead.text] using Text.not_mem_toString_nat (c := '}') (by decide) n
    | dice e d h => simpa [Lead.text] using not_mem_text h.formed
  have htrail : '}' ∉ trail.text.toList := by
    cases trail with
    | nothing => simp [Trail.text]
    | number n h => simpa [Trail.text] using Text.not_mem_toString_nat (c := '}') (by decide) n
    | dice e d h hcount => simpa [Trail.text] using not_mem_text h.formed
  have hname : '}' ∉ name.toList := fun hmem => absurd (hplain '}' hmem) (by decide)
  have htext : (written lead name trail).toList =
      '{' :: (lead.text.toList ++ (name.toList ++ trail.text.toList)) ++ ['}'] := by
    simp [toList_written]
  rw [htext]
  apply tokens_braced
  simp only [List.mem_append, not_or]
  exact ⟨hlead, hname, htrail⟩

theorem ofTokens_of_outline {token : List Char} {o : Outline} (ho : outline token = o) (hname : o.entity ≠ "") :
    ofTokens [token] = (do
      let quantity ← o.quantity.quantity
      let result ← o.result.result
      return [⟨String.ofList token, o.quantity.diceText, o.entity, o.result.diceText, quantity, result⟩]) := by
  have hempty : o.entity.isEmpty = false := by rwa [Bool.eq_false_iff, ne_eq, String.isEmpty_iff]
  simp only [ofTokens, ofToken, ho, Outline.isKept, hempty, Bool.not_false, Bool.or_true, if_true,
    Bool.false_eq_true, if_false, bind_assoc, pure_bind]

theorem parse_braced {inside : List Char} (hclose : '}' ∉ inside) {o : Outline}
    (ho : outline ('{' :: inside ++ ['}']) = o) (hname : o.entity ≠ "") :
    parse (String.ofList ('{' :: inside ++ ['}'])) = (do
      let quantity ← o.quantity.quantity
      let result ← o.result.result
      return [⟨String.ofList ('{' :: inside ++ ['}']), o.quantity.diceText, o.entity, o.result.diceText, quantity,
        result⟩]) := by
  unfold parse
  rw [String.toList_ofList, tokens_braced hclose, ofTokens_of_outline ho hname]

theorem ofTokens_written (lead : Lead) {name : String} (trail : Trail) (hname : name ≠ "")
    (hplain : ∀ c ∈ name.toList, Name.isPlain c = true) :
    ofTokens [(written lead name trail).toList] = liftM (do
      let quantity ← lead.quantity
      let result ← trail.result
      return [⟨written lead name trail, lead.diceText, name, trail.diceText, quantity, result⟩]) := by
  have hne : name.toList ≠ [] := by rwa [ne_eq, String.toList_eq_nil_iff]
  have houtline := outline_written hplain hne lead trail
  rw [← toList_written, String.ofList_toList] at houtline
  rw [ofTokens_of_outline houtline hname]
  simp only [Lead.diceText_amount, Lead.quantity_amount, Trail.diceText_amount, Trail.result_amount,
    String.ofList_toList, liftM_bind, liftM_pure]

/--
A token of its parts is read as the one placeholder that says them, without fail. The dice in front of the name are
rolled first.
-/
theorem parse_written (lead : Lead) {name : String} (trail : Trail) (hname : name ≠ "")
    (hplain : ∀ c ∈ name.toList, Name.isPlain c = true) :
    parse (written lead name trail) = liftM (do
      let quantity ← lead.quantity
      let result ← trail.result
      return [⟨written lead name trail, lead.diceText, name, trail.diceText, quantity, result⟩]) := by
  unfold parse
  rw [tokens_written lead trail hplain, ofTokens_written lead trail hname hplain]

theorem parse_written_dice :
    "d_x" ≠ "" ∧ (∀ c ∈ "d_x".toList, Name.isPlain c = true) ∧
      parse "\x7b2d4x+1 d_x 1d6-2\x7d" = liftM (do
        let quantity ← (Dice.mk 2 4 true 1).roll
        let result ← (Dice.mk 1 6 false (-2)).roll
        return [⟨"\x7b2d4x+1 d_x 1d6-2\x7d", "2d4x+1", "d_x", "1d6-2", quantity, some (result : Int)⟩]) := by
  have hplain : ∀ c ∈ "d_x".toList, Name.isPlain c = true := List.all_eq_true.mp (by decide)
  have hlead : (Expression.mk ['2'] ['4'] true ['+', '1']).Writes ⟨2, 4, true, 1⟩ :=
    ⟨.inr rfl, rfl, rfl, .inr ⟨['1'], 1, rfl, .inl ⟨rfl, rfl⟩⟩, by decide, by decide, by decide, by decide, by decide⟩
  have htrail : (Expression.mk ['1'] ['6'] false ['-', '2']).Writes ⟨1, 6, false, -2⟩ :=
    ⟨.inr rfl, rfl, rfl, .inr ⟨['2'], 2, rfl, .inr ⟨rfl, rfl⟩⟩, by decide, by decide, by decide, by decide, by decide⟩
  have h := parse_written (.dice _ _ hlead) (.dice _ _ htrail (by decide)) (by decide) hplain
  refine ⟨by decide, hplain, ?_⟩
  have htoken : written (.dice _ _ hlead) "d_x" (.dice _ _ htrail (by decide)) = "\x7b2d4x+1 d_x 1d6-2\x7d" := by
    rfl
  rw [htoken] at h
  simpa [Lead.quantity, Trail.result, Lead.diceText, Trail.diceText, Expression.text] using h

end Placeholder

end Tabletop
