import Tabletop.Expansion.Evaluate
import Tabletop.Proofs.Expansion.Display
import Tabletop.Proofs.Placeholder.Written

/-!
# Evaluating a placeholder

An evaluation settles what its text is about before it writes any text. For an entity that is asked for
by name alone, with nothing expanded and nothing rolled, the text is told outright.
-/

namespace Tabletop

open Tabletop.Random

namespace Expander

variable {x : Expander} {e : Entity} {name : String} {s : Source}

/-! ## Answers -/

/-- What the text of one placeholder is about. -/
inductive Answer where
  /-- The number of a bare roll. -/
  | number (n : Nat)
  /-- An entity that is not expanded, with the placeholders in its text. -/
  | flat (p : Placeholder) (e : Entity) (nested : List Placeholder)
  | expanded (e : Expansion)

def Answer.text (x : Expander) (mode : Expansion.Mode) : Answer → String
  | number n => toString n
  | flat p e nested => x.flatText mode p e nested
  | expanded e => e.report

/-- An evaluation up to the point where its text is written. -/
def answer (x : Expander) (mode : Expansion.Mode) (text : String) : Roll Expansion.Error Answer := do
  let p ← parseSingle text
  if p.isBareRoll then
    return .number (← (Dice.evaluate p.quantityDice).adapt .dice)
  else
    let e ← x.find p.entity
    let nested ← read (x.readText e none)
    if mode.expands && Placeholder.refersToEntity nested then
      return .expanded (← x.expand mode p)
    else
      return .flat p e nested

theorem evaluate_eq_answer (x : Expander) (mode : Expansion.Mode) (text : String) :
    x.evaluate mode text = do return (← x.answer mode text).text x mode := by
  unfold evaluate answer
  simp only [bind_assoc]
  refine bind_congr fun p => ?_
  split
  · simp only [bind_assoc, pure_bind]
    rfl
  · simp only [bind_assoc]
    refine bind_congr fun e => bind_congr fun nested => ?_
    split
    · simp only [bind_assoc, pure_bind]
      rfl
    · simp only [pure_bind]
      rfl

/-! ## One reading -/

/-- The entity of a name, with the placeholders in its plain text. -/
def found (x : Expander) (name : String) : Roll Expansion.Error (Entity × List Placeholder) := do
  let e ← x.find name
  let nested ← read (x.readText e none)
  return (e, nested)

theorem found_ok {nested : List Placeholder} {t : Source}
    (h : (x.found name).run s = some (.ok (e, nested), t)) :
    x.lookup name = .ok e ∧ (read (x.readText e none)).run s = some (.ok nested, t) := by
  obtain ⟨e, u, hfind, h⟩ := Roll.run_bind_ok_iff.mp h
  obtain ⟨nested, v, hread, h⟩ := Roll.run_bind_ok_iff.mp h
  rw [Roll.run_pure] at h
  cases h
  obtain ⟨hlookup, rfl⟩ := find_ok hfind
  exact ⟨hlookup, hread⟩

theorem run_found (hlookup : x.lookup name = .ok e) :
    (x.found name).run s =
      ((read (x.readText e none)).run s).map fun (result, t) => (result.map fun nested => (e, nested), t) := by
  rw [found, find_eq_pure hlookup, pure_bind, Roll.run_bind]
  cases (read (x.readText e none)).run s with
  | none => rfl
  | some p => cases p with | mk result t => cases result <;> rfl

theorem run_evaluate_found {mode : Expansion.Mode} {text : String} {root : Placeholder} {s' : Source}
    (hroot : (parseSingle text).run s = some (.ok root, s')) (hbare : root.isBareRoll = false)
    (hflat : ∀ e nested t, (x.found root.entity).run s' = some (.ok (e, nested), t) →
      (mode.expands && Placeholder.refersToEntity nested) = false) :
    (x.evaluate mode text).run s =
      (do
        let (e, nested) ← x.found root.entity
        return x.flatText mode root e nested : Roll Expansion.Error String).run s' := by
  have hwhole : (x.evaluate mode text).run s =
      (do
        let (e, nested) ← x.found root.entity
        if mode.expands && Placeholder.refersToEntity nested then
          return (← x.expand mode root).report
        else
          return x.flatText mode root e nested : Roll Expansion.Error String).run s' := by
    unfold evaluate found
    rw [Roll.run_bind, hroot]
    simp only [Option.bind_some, hbare, Bool.false_eq_true, if_false, bind_assoc, pure_bind]
    rfl
  rw [hwhole]
  refine Roll.run_bind_congr fun (e, nested) t hfound => ?_
  dsimp only
  rw [hflat e nested t hfound]
  rfl

/-! ## Names -/

theorem toList_braces (name : String) :
    ("\x7b" ++ name ++ "\x7d").toList = '{' :: name.toList ++ ['}'] := by
  rw [String.toList_append, String.toList_append]
  rfl

theorem run_parseSingle_name (hplain : ∀ c ∈ name.toList, Name.isPlain c = true) (hname : name ≠ "") :
    (parseSingle ("\x7b" ++ name ++ "\x7d")).run s =
      some (.ok ⟨"\x7b" ++ name ++ "\x7d", "", name, "", 1, none⟩, s) := by
  have hblank : ∀ c ∈ '{' :: name.toList ++ ['}'], Text.isBlank c = false := by
    intro c hc
    rw [List.cons_append, List.mem_cons, List.mem_append, List.mem_singleton] at hc
    rcases hc with rfl | hc | rfl
    · decide
    · exact Name.isBlank_of_isKept (Name.isKept_iff.mpr (.inl (hplain c hc)))
    · decide
  have hbraced : braced ("\x7b" ++ name ++ "\x7d") = "\x7b" ++ name ++ "\x7d" := by
    have hlast : ('{' :: name.toList ++ ['}']).getLast? = some '}' := List.getLast?_concat
    unfold braced
    dsimp only
    rw [toList_braces, Text.trim_eq_self hblank, hlast, List.cons_append, List.head?_cons,
      if_pos (by decide), ← List.cons_append, ← toList_braces, String.ofList_toList]
  have hwritten : Placeholder.written .nothing name .nothing = "\x7b" ++ name ++ "\x7d" := by
    simp [Placeholder.written, Placeholder.Lead.text, Placeholder.Trail.text]
  have hread : (read ("\x7b" ++ name ++ "\x7d")).run s =
      some (.ok [⟨"\x7b" ++ name ++ "\x7d", "", name, "", 1, none⟩], s) := by
    rw [read_ok_iff, Placeholder.parse, ← hwritten, Placeholder.tokens_written .nothing .nothing hplain,
      Placeholder.ofTokens_written .nothing .nothing hname hplain, Roll.run_liftM]
    rfl
  rw [parseSingle, hbraced, Roll.run_bind, hread]
  rfl

theorem run_evaluate_name (hplain : ∀ c ∈ name.toList, Name.isPlain c = true) (hname : name ≠ "")
    (hlookup : x.lookup name = .ok e) :
    (x.evaluate ⟨false, false⟩ ("\x7b" ++ name ++ "\x7d")).run s =
      ((read (x.readText e none)).run s).map fun (result, t) =>
        (result.map fun _ => x.displayText e none [], t) := by
  have hbare : name.isEmpty = false := by simpa using hname
  rw [run_evaluate_found (run_parseSingle_name hplain hname) hbare fun _ _ _ _ => rfl, Roll.run_bind,
    run_found hlookup]
  cases (read (x.readText e none)).run s with
  | none => rfl
  | some p => cases p with | mk result t => cases result <;> rfl

end Expander

end Tabletop
