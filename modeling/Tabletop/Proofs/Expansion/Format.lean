import Tabletop.Proofs.Expansion.Evaluate
import Tabletop.Proofs.Expansion.Run
import Tabletop.Proofs.Random.Pair

/-!
# Formats

Two expanders whose options differ in no more than how text is shown find the same entities, roll the
same dice and grow the same tree. Only the texts they keep may differ.
-/

namespace Tabletop

open Tabletop.Random

/-! ## Expansions without text -/

def Node.silent (node : Node) : Node := { node with text := "" }

def Tree.silent (t : Tree) : Tree := t.map Node.silent

def Tally.Entry.silent (entry : Entry) : Entry := { entry with text := "" }

def Tally.silent (t : Tally) : Tally := ⟨t.entries.map Entry.silent⟩

namespace Expansion

/-- The expansion but for its texts. -/
def silent (e : Expansion) : Expansion := ⟨e.tree.silent, e.nonUnique.silent⟩

def Progress.silent (p : Progress) : Progress := { p with done := p.done.silent }

end Expansion

theorem Tree.silent_push (t : Tree) (parent : Option Nat) (p : Placeholder) (unique : Bool) (text : String) :
    (t.push parent p unique text).silent = t.silent.push parent p unique "" := by
  apply map_push
  · intro node
    rfl
  · intro node children
    rfl
  · rfl

theorem Tally.silent_record (t : Tally) (name text : String) :
    (t.record name text).silent = t.silent.record name "" := by
  have h : (recordIn name text t.entries).map Entry.silent =
      recordIn name "" (t.entries.map Entry.silent) := by
    induction t.entries with
    | nil => rfl
    | cons entry rest ih =>
      have hname : entry.silent.name = entry.name := rfl
      rw [List.map_cons, recordIn, recordIn, hname]
      split
      · rfl
      · rw [List.map_cons, ih]
  rw [silent, record, h]
  rfl

namespace Expander

open Expansion (Mode Progress Request)

variable {x : Expander} {mode : Mode} {options other : RenderOptions}

def Answer.silent : Answer → Answer
  | expanded e => expanded e.silent
  | a => a

/-! ## Steps -/

theorem silent_tallied (p : Placeholder) (r : Resolved) (tally : Tally) :
    (x.tallied p r tally).silent = tally.silent.record p.entity "" := Tally.silent_record _ _ _

theorem silent_added (r : Request) (node : Resolved) (p : Progress) :
    (x.added mode r node p).silent =
      let parent := if r.opens then p.silent.done.tree.lastId? else p.parent
      let unique := parent.isNone || node.isRandom
      ⟨⟨p.silent.done.tree.push parent r.placeholder unique "",
        if unique then p.silent.done.nonUnique else p.silent.done.nonUnique.record r.placeholder.entity ""⟩,
        parent, p.waiting ++ Expansion.requestsOf mode node.nested⟩ := by
  have hlast : p.done.tree.silent.lastId? = p.done.tree.lastId? := Tree.map_lastId? _
  simp only [Progress.silent, Expansion.silent, added, Tree.silent_push, silent_tallied,
    apply_ite Tally.silent, hlast]

theorem silent_added_congr {y : Expander} {p q : Progress} (h : p.silent = q.silent) (r : Request)
    (node : Resolved) : (x.added mode r node p).silent = (y.added mode r node q).silent := by
  have hparent : p.parent = q.parent := congrArg (·.parent) h
  have hwaiting : p.waiting = q.waiting := congrArg (·.waiting) h
  rw [silent_added, silent_added, h, hparent, hwaiting]

/-! ## Runs -/

section Options

variable (x) (h : options.includeFullText = other.includeFullText)
include h

theorem renderWith_reading_format (skipTable : Bool) (e : Entity) (outcome : Option String) :
    { x with options }.renderWith ({ x with options }.readingOptions skipTable) e outcome =
      { x with options := other }.renderWith ({ x with options := other }.readingOptions skipTable) e
        outcome := by
  have hreading : { x with options }.readingOptions skipTable =
      { x with options := other }.readingOptions skipTable := by
    simp only [readingOptions, h]
  rw [hreading]
  rfl

theorem resolve_format (p : Placeholder) (rolls : Bool) :
    { x with options }.resolve p rolls = { x with options := other }.resolve p rolls := by
  unfold resolve
  simp only [renderWith_reading_format x h]
  rfl

theorem inStep_run_format (mode : Mode) (room : Nat) {p q : Progress} (hsame : p.silent = q.silent) :
    Roll.InStep Expansion.silent ({ x with options }.run mode room p)
      ({ x with options := other }.run mode room q) := by
  -- Both resolve the same, so the two runs never differ in more than texts.
  induction room generalizing p q with
  | zero => exact Roll.inStep_pure (congrArg (·.done) hsame)
  | succ room ih =>
    have hwaiting : p.waiting = q.waiting := congrArg (·.waiting) hsame
    rw [run, run, ← hwaiting]
    split
    next => exact Roll.inStep_pure (congrArg (·.done) hsame)
    next r waiting _ =>
      rw [resolve_format x h]
      refine Roll.inStep_bind_left _ fun node => ih (silent_added_congr ?_ r node)
      exact congrArg (fun s : Progress => { s with waiting }) hsame

theorem inStep_expand_format (mode : Mode) (root : Placeholder) :
    Roll.InStep Expansion.silent ({ x with options }.expand mode root)
      ({ x with options := other }.expand mode root) :=
  inStep_run_format x h mode Expansion.capacity rfl

theorem inStep_answer_format (mode : Mode) (text : String) :
    Roll.InStep Answer.silent ({ x with options }.answer mode text)
      ({ x with options := other }.answer mode text) := by
  refine Roll.inStep_bind_left _ fun p => ?_
  split
  · exact Roll.inStep_refl _ _
  · refine Roll.inStep_bind_left _ fun e => ?_
    have htext : { x with options }.readText e none = { x with options := other }.readText e none :=
      renderWith_reading_format x h false e none
    rw [htext]
    refine Roll.inStep_bind_left _ fun nested => ?_
    split
    · exact Roll.inStep_bind (inStep_expand_format x h mode p) fun e e' hsame =>
        Roll.inStep_pure (congrArg Answer.expanded hsame)
    · exact Roll.inStep_refl _ _

end Options

/--
The format of the output only shapes text: both formats draw the same words and fail alike, or grow the same tree and
count the same names.
-/
theorem expand_format (x : Expander) (options other : RenderOptions)
    (h : options.includeFullText = other.includeFullText) (mode : Mode) (root : Placeholder)
    (text : String) :
    Roll.InStep Expansion.silent ({ x with options }.expand mode root)
        ({ x with options := other }.expand mode root) ∧
      Roll.InStep (fun _ => ()) ({ x with options }.evaluate mode text)
        ({ x with options := other }.evaluate mode text) ∧
      Roll.InStep Answer.silent ({ x with options }.answer mode text)
        ({ x with options := other }.answer mode text) ∧
      ∀ shown, { x with options := shown }.evaluate mode text = do
        return (← { x with options := shown }.answer mode text).text { x with options := shown } mode := by
  have hanswer := inStep_answer_format x h mode text
  refine ⟨inStep_expand_format x h mode root, ?_, hanswer, fun shown => evaluate_eq_answer _ mode text⟩
  rw [evaluate_eq_answer, evaluate_eq_answer]
  exact Roll.inStep_bind hanswer fun _ _ _ => Roll.inStep_pure rfl

def camp : Expander where
  lookup
    | "camp" => .ok (.ofEffect "Camp" "\x7b1d4 guard\x7d keep a \x7bcook_fire\x7d.")
    | "guard" => .ok (.ofEffect "Guard" "Yawns.")
    | "cook_fire" => .ok (.ofEffect "Cook-fire" "Burns.")
    | name => .error (.notFound name)
  renderer := .standard
  options := {}

def typesetCamp : Expander := { camp with options := { format := .typeset } }

theorem expand_format_camp :
    ∃ e e' t,
      (camp.expand ⟨true, true⟩ (.ofEntity "camp" 1)).run (.ofStream (fun _ => 0x90000000) 200) =
        some (.ok e, t) ∧
      (typesetCamp.expand ⟨true, true⟩ (.ofEntity "camp" 1)).run (.ofStream (fun _ => 0x90000000) 200) =
        some (.ok e', t) ∧
      e.tree.nodes.map (·.text) = ["#### Camp  \n3 guard keep a 1 cook_fire.  \n", "", "", "", ""] ∧
      e'.tree.nodes.map (·.text) =
        ["\\textbf\x7b\\large\x7bCamp\x7d\x7d \n \n3 guard keep a 1 cook\\_fire. \n \n", "", "", "", ""] ∧
      e.silent = e'.silent := by
  have hplain :
      (((camp.expand ⟨true, true⟩ (.ofEntity "camp" 1)).run (.ofStream (fun _ => 0x90000000) 200)).map
          fun p => p.1.toOption.map fun (e : Expansion) => e.tree.nodes.map (·.text)) =
        some (some ["#### Camp  \n3 guard keep a 1 cook_fire.  \n", "", "", "", ""]) := by
    decide +kernel
  have htypeset :
      (((typesetCamp.expand ⟨true, true⟩ (.ofEntity "camp" 1)).run
        (.ofStream (fun _ => 0x90000000) 200)).map
          fun p => p.1.toOption.map fun (e : Expansion) => e.tree.nodes.map (·.text)) =
        some (some
          ["\\textbf\x7b\\large\x7bCamp\x7d\x7d \n \n3 guard keep a 1 cook\\_fire. \n \n", "", "", "", ""]) := by
    decide +kernel
  obtain ⟨e, t, hrun, htexts⟩ := Roll.exists_run_of_map hplain
  obtain ⟨e', t', hrun', htexts'⟩ := Roll.exists_run_of_map htypeset
  have hsame := (expand_format camp camp.options { format := .typeset } rfl ⟨true, true⟩
    (.ofEntity "camp" 1) "camp").1 (.ofStream (fun _ => 0x90000000) 200)
  change ((camp.expand _ _).run _).map _ = ((typesetCamp.expand _ _).run _).map _ at hsame
  rw [hrun, hrun', Option.map_some, Option.map_some, Option.some.injEq, Prod.mk.injEq] at hsame
  obtain ⟨hsilent, rfl⟩ := hsame
  exact ⟨e, e', t, hrun, hrun', htexts, htexts', Except.ok.inj hsilent⟩

end Expander

end Tabletop
