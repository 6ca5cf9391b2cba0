import Tabletop.Proofs.Dice.Longest
import Tabletop.Proofs.Placeholder.Written

/-!
# Dice behind a name

Where a name may start, and what dice at the end of a token leave to it. Their digits belong to no name, but the
letter in front of the sides may: where no count stands before it, it is read as the end of the name.
-/

namespace Tabletop

open Tabletop.Random

namespace Placeholder

open Dice (Expression)
open Dice.Expression (Foreign before?_sound follows_blank foreign_close leading?_append leading?_append_foreign
  leading?_eq_none_iff leading?_sound not_mem_of_foreign prefix_append_foreign text_append text_ne_concat)

variable {e : Expression} {c : Char} {cs front : List Char}

/-! ## Borders -/

/-- A name may start behind such a letter. -/
def isBorder (c : Char) : Bool := c = '{' || Text.isBlank c

theorem foreign_of_isBorder (h : isBorder c = true) : Foreign c := by
  simp only [isBorder, Bool.or_eq_true, decide_eq_true_eq] at h
  rcases h with rfl | hblank
  · exact ⟨by decide, by decide⟩
  · refine ⟨Text.isDigit_of_isBlank hblank, fun hmem => ?_⟩
    simp only [List.mem_cons, List.not_mem_nil, or_false] at hmem
    rcases hmem with rfl | rfl | rfl | rfl <;> exact absurd hblank (by decide)

theorem nameRun_of_borderless (h : ∀ c ∈ cs, isBorder c = false) (atBorder : Bool) :
    nameRun atBorder cs = if atBorder then cs.takeWhile isNameChar else [] := by
  induction cs generalizing atBorder with
  | nil => cases atBorder <;> rfl
  | cons c cs ih =>
    have hnext : nameRun (isBorder c) cs = [] := by
      rw [h c List.mem_cons_self]
      exact ih (fun d hd => h d (List.mem_cons_of_mem c hd)) false
    rw [isBorder] at hnext
    rw [nameRun, hnext]
    cases atBorder <;> cases hc : isNameChar c <;> simp [hc]

theorem nameRun_append_congr {x y : List Char} (hx : ∀ c ∈ x, isBorder c = false) (hy : ∀ c ∈ y, isBorder c = false)
    (hrun : x.takeWhile isNameChar = y.takeWhile isNameChar) (front : List Char) (atBorder : Bool) :
    nameRun atBorder (front ++ x) = nameRun atBorder (front ++ y) := by
  induction front generalizing atBorder with
  | nil => rw [List.nil_append, List.nil_append, nameRun_of_borderless hx, nameRun_of_borderless hy, hrun]
  | cons c front ih =>
    simp only [List.cons_append, nameRun, ih]
    rw [← List.cons_append, ← List.cons_append, List.takeWhile_append, List.takeWhile_append, hrun]

/-! ## What dice put into a name -/

/-- What dice at the end of a token may put into its name: their letter, unless a count stands before it. -/
def stub (e : Expression) : List Char := if e.count = [] then ['d'] else []

theorem borderless_text (h : e.Formed) : ∀ c ∈ e.text ++ ['}'], isBorder c = false := by
  intro c hc
  rcases List.mem_append.mp hc with htext | hclose
  · rw [Bool.eq_false_iff]
    exact fun hborder => not_mem_of_foreign h (foreign_of_isBorder hborder) htext
  · obtain rfl := List.mem_singleton.mp hclose
    decide

theorem borderless_stub (e : Expression) : ∀ c ∈ stub e ++ ['}'], isBorder c = false := by
  intro c hc
  have hletter : c = 'd' ∨ c = '}' := by
    unfold stub at hc
    split at hc <;> simp_all
  rcases hletter with rfl | rfl <;> decide

theorem takeWhile_stub (e : Expression) : (stub e ++ ['}']).takeWhile isNameChar = stub e := by
  unfold stub
  split <;> decide

theorem takeWhile_text (h : e.Formed) : (e.text ++ ['}']).takeWhile isNameChar = stub e := by
  have hstop (digits rest : List Char) (hne : digits ≠ []) (hdigits : ∀ c ∈ digits, Text.isDigit c = true) :
      (digits ++ rest).takeWhile isNameChar = [] := by
    obtain ⟨c, digits, rfl⟩ := List.exists_cons_of_ne_nil hne
    rw [List.cons_append, List.takeWhile_cons_of_neg]
    intro hname
    have hdigit := hdigits c List.mem_cons_self
    rw [isDigit_of_isNameChar hname] at hdigit
    cases hdigit
  unfold stub
  by_cases hnone : e.count = []
  · rw [if_pos hnone, text_append, hnone, List.nil_append, List.takeWhile_cons_of_pos (by decide),
      hstop _ _ h.sides_ne h.sides]
  · rw [if_neg hnone, text_append, hstop _ _ hnone h.count]

theorem nameRun_text (h : e.Formed) (front : List Char) (atBorder : Bool) :
    nameRun atBorder (front ++ (e.text ++ ['}'])) = nameRun atBorder (front ++ (stub e ++ ['}'])) := by
  refine nameRun_append_congr (borderless_text h) (borderless_stub e) ?_ front atBorder
  rw [takeWhile_text h, takeWhile_stub]

theorem leading?_stub (hread : Expression.leading? (front ++ (e.text ++ ['}'])) = none) :
    Expression.leading? (front ++ (stub e ++ ['}'])) = none := by
  refine leading?_eq_none_iff.mpr fun l hl => ?_
  have hfront : l.text <+: front := by
    have hstub := hl.text
    rw [← List.append_assoc, prefix_append_foreign hl.formed foreign_close] at hstub
    unfold stub at hstub
    split at hstub
    · exact (List.prefix_concat_iff.mp hstub).resolve_left (text_ne_concat hl.formed front)
    · simpa using hstub
  obtain ⟨more, rfl⟩ := hfront
  rw [List.append_assoc] at hread
  obtain ⟨e', rest', hread', -⟩ := leading?_append hl.formed (more ++ (e.text ++ ['}']))
  rw [hread] at hread'
  cases hread'

theorem nameOf_text (h : e.Formed) (hname : nameOf (front ++ (e.text ++ ['}'])) ≠ "") :
    nameOf (front ++ (e.text ++ ['}'])) = nameOf (front ++ (stub e ++ ['}'])) := by
  by_cases hborder : ∃ c ∈ front, isBorder c = true
  · obtain ⟨c, hc, hborder⟩ := hborder
    obtain ⟨before, behind, rfl⟩ := List.append_of_mem hc
    have hc := foreign_of_isBorder hborder
    unfold nameOf
    simp only [List.append_assoc, List.cons_append, leading?_append_foreign hc]
    have hrun (kept : List Char) := nameRun_text h (kept ++ c :: behind)
    simp only [List.append_assoc, List.cons_append] at hrun
    cases Expression.leading? before with
    | none => simp only [Option.map_none, hrun]
    | some found => simp only [Option.map_some, hrun]
  · cases hread : Expression.leading? (front ++ (e.text ++ ['}'])) with
    | none =>
      unfold nameOf
      rw [hread, leading?_stub hread, nameRun_text h]
    | some found =>
      -- No border is left behind the dice in front, and without one there is no name.
      have hrest : ∀ c ∈ found.2, isBorder c = false := by
        intro c hc
        have hinside : c ∈ front ++ (e.text ++ ['}']) := by
          rw [(leading?_sound hread).2]
          exact List.mem_append_right _ hc
        rcases List.mem_append.mp hinside with hfront | hback
        · exact Bool.eq_false_iff.mpr fun hc => hborder ⟨c, hfront, hc⟩
        · exact borderless_text h c hback
      refine absurd ?_ hname
      unfold nameOf
      rw [hread]
      simp only [nameRun_of_borderless hrest]
      rfl

/-! ## Tokens with dice at the end -/

theorem ReadFrom.of_resultDice {text : List Char} {token : List Char} {p : Placeholder} (htoken : token ∈ tokens text)
    (h : ReadFrom token p) (hdice : p.resultDice ≠ "") :
    ∃ front e, e.Formed ∧ p.token = String.ofList ('{' :: (front ++ (e.text ++ ['}']))) ∧
      p.resultDice = String.ofList e.text ∧ p.entity = nameOf (front ++ (stub e ++ ['}'])) := by
  obtain ⟨inside, rfl, -⟩ := braced_of_mem_tokens htoken
  have hresult := h.resultDice_eq
  have hentity := h.entity_eq
  rw [Outline.resultPart] at hresult
  split at hresult
  · exact absurd hresult hdice
  next hne =>
    rw [outline_braced] at hresult hentity hne
    dsimp only at hresult hentity hne
    unfold resultOf at hresult
    split at hresult
    next e hread =>
      obtain ⟨hformed, front, hinside⟩ := before?_sound hread
      refine ⟨front, e, hformed, ?_, hresult, ?_⟩
      · rw [h.token_eq, List.cons_append, hinside]
      · rw [hentity, hinside]
        exact nameOf_text hformed (by simpa [← hinside] using hne)
    next =>
      dsimp only at hresult
      split at hresult <;> exact absurd hresult hdice

section Trailing

variable {name : String} (hname : name ≠ "") (hplain : ∀ c ∈ name.toList, Name.isPlain c = true) (he : e.Formed)
include hname hplain he

theorem nameRun_trailing :
    nameRun true (name.toList ++ ' ' :: (e.text ++ ['}'])) = name.toList ++ ' ' :: stub e := by
  have hall : ∀ c ∈ name.toList ++ [' '], isNameChar c = true := by
    intro c hc
    rcases List.mem_append.mp hc with hc | hc
    · exact isNameChar_of_isPlain (hplain c hc)
    · obtain rfl := List.mem_singleton.mp hc
      decide
  obtain ⟨first, rest, hcons⟩ := List.exists_cons_of_ne_nil (by simpa using hname : name.toList ≠ [])
  rw [hcons] at hall ⊢
  have hfirst := hall first (by simp)
  rw [List.cons_append, nameRun, if_pos (by simp [hfirst]), ← List.cons_append, List.append_cons,
    List.takeWhile_append_of_pos hall, takeWhile_text he, ← List.append_cons]

theorem nameOf_trailing :
    nameOf (name.toList ++ ' ' :: (e.text ++ ['}'])) = if e.count = [] then name ++ "_d" else name := by
  have hne : name.toList ≠ [] := by simpa using hname
  have hkept : ∀ c ∈ name.toList, Name.isKept c = true := fun c hc => Name.isKept_iff.mpr (.inl (hplain c hc))
  have hread : Expression.leading? (name.toList ++ ' ' :: (e.text ++ ['}'])) = none :=
    leading?_name hplain (fun c hc => (follows_blank _ c hc).1) hne
  unfold nameOf
  rw [hread]
  dsimp only
  rw [nameRun_trailing hname hplain he, stub]
  split
  · rw [Name.normalize_words hkept (List.all_eq_true.mp (by decide)) hne (by simp), ← String.toList_inj]
    simp
  · rw [Name.normalize_append_blank, String.ofList_toList, Name.normalize_eq_self hkept]

theorem outline_trailing :
    outline ('{' :: (name.toList ++ ' ' :: e.text) ++ ['}']) =
      ⟨.absent, if e.count = [] then name ++ "_d" else name, .dice e⟩ := by
  have hne : name.toList ≠ [] := by simpa using hname
  have hquantity : quantityOf (name.toList ++ ' ' :: (e.text ++ ['}'])) = .absent :=
    quantityOf_written hplain hne .nothing fun c hc => (follows_blank _ c hc).1
  rw [outline_braced, List.append_assoc, List.cons_append, hquantity, nameOf_trailing hname hplain he,
    resultOf_dice name.toList he]

end Trailing

/-- A name, a blank and dice. -/
def trailing (name : String) (e : Expression) : String := "\x7b" ++ name ++ " " ++ String.ofList e.text ++ "\x7d"

/--
The name of a placeholder with dice at its end is read in front of them, though the letter of dice with no count belongs
to it.
-/
theorem parse_trailing (text : String) :
    (∀ s ps s', (parse text).run s = some (.ok ps, s') → ∀ p ∈ ps, p.resultDice ≠ "" →
      ∃ front e, e.Formed ∧ p.token = String.ofList ('{' :: (front ++ (e.text ++ ['}']))) ∧
        p.resultDice = String.ofList e.text ∧ p.entity = nameOf (front ++ (stub e ++ ['}']))) ∧
    ∀ name e d, name ≠ "" → (∀ c ∈ name.toList, Name.isPlain c = true) → e.Writes d → text = trailing name e →
      parse text = liftM (do
        let result ← d.roll
        return [⟨text, "", if e.count = [] then name ++ "_d" else name, String.ofList e.text, 1,
          some (result : Int)⟩]) := by
  constructor
  · intro s ps s' hread p hp hdice
    obtain ⟨token, htoken, hfrom⟩ := exists_token (parse_ok hread) hp
    exact hfrom.of_resultDice (List.mem_of_mem_filter htoken) hdice
  · rintro name e d hname hplain hwrites rfl
    have houtline := outline_trailing hname hplain hwrites.formed
    have hclose : '}' ∉ name.toList ++ ' ' :: e.text := by
      rw [List.mem_append, not_or, List.mem_cons, not_or]
      exact ⟨fun hmem => absurd (hplain '}' hmem) (by decide), by decide, not_mem_text hwrites.formed⟩
    have htoken : trailing name e = String.ofList ('{' :: (name.toList ++ ' ' :: e.text) ++ ['}']) := by
      rw [← String.toList_inj]
      simp [trailing]
    have hentity : (if e.count = [] then name ++ "_d" else name) ≠ "" := by
      split <;> simp [hname]
    rw [htoken, parse_braced hclose houtline hentity]
    simp only [Amount.quantity, Amount.result, rollWritten, hwrites.dice?, Amount.diceText, pure_bind, bind_assoc,
      liftM_bind, liftM_pure]

def watch : String := "\x7b2d4 orc-d 1d6x\x7d \x7bgoblin d6\x7d"

theorem parse_trailing_watch :
    (∃ ps s', (parse watch).run (.ofStream (fun _ => 0) 9) = some (.ok ps, s') ∧
      ps.map (·.entity) = ["orc_d", "goblin_d"] ∧
      ∀ p ∈ ps, p.resultDice ≠ "" ∧ ∃ front e, e.Formed ∧
        p.token = String.ofList ('{' :: (front ++ (e.text ++ ['}']))) ∧ p.resultDice = String.ofList e.text ∧
        p.entity = nameOf (front ++ (stub e ++ ['}']))) ∧
    parse "\x7bd_x 1d20-1\x7d" = liftM (do
      let result ← (Dice.mk 1 20 false (-1)).roll
      return [⟨"\x7bd_x 1d20-1\x7d", "", "d_x", "1d20-1", 1, some (result : Int)⟩]) := by
  constructor
  · have hvalue :
        (((parse watch).run (.ofStream (fun _ => 0) 9)).map fun p => p.1.toOption.map fun ps =>
            (ps.map (·.entity), ps.map (·.resultDice))) =
          some (some (["orc_d", "goblin_d"], ["1d6x", "d6"])) := by
      decide +kernel
    obtain ⟨ps, s', hrun, hvalue⟩ := Roll.exists_run_of_map hvalue
    obtain ⟨hentities, hdice⟩ := Prod.mk.inj hvalue
    refine ⟨ps, s', hrun, hentities, fun p hp => ?_⟩
    have hne : p.resultDice ≠ "" := by
      have hmem : p.resultDice ∈ ["1d6x", "d6"] := hdice ▸ List.mem_map_of_mem hp
      intro hempty
      rw [hempty] at hmem
      exact absurd hmem (by decide)
    exact ⟨hne, (parse_trailing watch).1 _ ps s' hrun p hp hne⟩
  · have hwrites : (Expression.mk ['1'] ['2', '0'] false ['-', '1']).Writes ⟨1, 20, false, -1⟩ :=
      ⟨.inr rfl, rfl, rfl, .inr ⟨['1'], 1, rfl, .inr ⟨rfl, rfl⟩⟩, by decide, by decide, by decide, by decide, by decide⟩
    exact (parse_trailing "\x7bd_x 1d20-1\x7d").2 "d_x" _ _ (by decide) (List.all_eq_true.mp (by decide)) hwrites
      (by decide)

/-- The letter of dice without a count is read as the end of the name in front of them. -/
theorem parse_trailing_goblin :
    trailing "goblin" ⟨[], ['6'], false, []⟩ = "\x7bgoblin d6\x7d" ∧
      (Expression.mk [] ['6'] false []).Writes ⟨1, 6, false, 0⟩ ∧
      ∃ ps s', (parse "\x7bgoblin d6\x7d").run (.ofStream (fun _ => 0) 9) = some (.ok ps, s') ∧
        ps.map (·.resultDice) = ["d6"] ∧ ps.map (·.entity) = ["goblin_d"] ∧ ps.map (·.entity) ≠ ["goblin"] := by
  have hvalue :
      (((parse "\x7bgoblin d6\x7d").run (.ofStream (fun _ => 0) 9)).map fun p => p.1.toOption.map fun ps =>
          (ps.map (·.resultDice), ps.map (·.entity))) = some (some (["d6"], ["goblin_d"])) := by
    decide +kernel
  obtain ⟨ps, s', hrun, hvalue⟩ := Roll.exists_run_of_map hvalue
  obtain ⟨hdice, hentities⟩ := Prod.mk.inj hvalue
  refine ⟨by decide, ?_, ps, s', hrun, hdice, hentities, ?_⟩
  · exact ⟨.inl ⟨rfl, rfl⟩, rfl, rfl, .inl ⟨rfl, rfl⟩, by decide, by decide, by decide, by decide, by decide⟩
  · rw [hentities]
    decide

end Placeholder

end Tabletop
