import Mathlib.Data.List.Induction
import Tabletop.Proofs.Compendium.Alike
import Tabletop.Workbench

/-!
# Replaying calls

A call rolls from a source that is settled by the seed set last and the number of calls since then. What else
was asked before it, and whether that failed, makes no difference to its answer.
-/

namespace Tabletop

/-! ## Histories -/

section History

variable {α β : Type}

/-- What was set last, or `first` where nothing was. -/
def lastSet (set? : α → Option β) (first : β) (history : List α) : β :=
  (history.filterMap set?).getLast?.getD first

/-- How many commands followed the last one that starts the count over. -/
def countSince (restarts : α → Bool) (history : List α) : Nat :=
  (history.reverse.takeWhile fun command => !restarts command).length

variable (set? : α → Option β) (restarts : α → Bool) (first : β) (history : List α) (command : α)

theorem lastSet_concat :
    lastSet set? first (history ++ [command]) = (set? command).getD (lastSet set? first history) := by
  unfold lastSet
  cases hset : set? command <;> simp [hset]

theorem countSince_concat :
    countSince restarts (history ++ [command]) =
      if restarts command then 0 else countSince restarts history + 1 := by
  unfold countSince
  cases hrestarts : restarts command <;> simp [hrestarts]

end History

/-! ## Sessions -/

namespace Session

inductive Command where
  | evaluate (mode : Expansion.Mode) (text : String)
  | expand (mode : Expansion.Mode) (text : String)
  | reseed (seed : UInt64)

/-- The seed that a command sets. -/
def Command.seed? : Command → Option UInt64
  | .reseed seed => some seed
  | _ => none

def Command.restarts (c : Command) : Bool := c.seed?.isSome

/-- The session after a command, whatever its answer is. -/
def perform (s : Session) : Command → Session
  | .evaluate mode text => (s.evaluate mode text).2
  | .expand mode text => (s.expand mode text).2
  | .reseed seed => s.reseed seed

def after (s : Session) (history : List Command) : Session := history.foldl perform s

variable {s : Session}

theorem after_concat (history : List Command) (command : Command) :
    s.after (history ++ [command]) = (s.after history).perform command := by
  simp only [after, List.foldl_append, List.foldl_cons, List.foldl_nil]

theorem after_eq (hcalls : s.calls = 0) (history : List Command) :
    s.after history =
      { s with
        seed := lastSet Command.seed? s.seed history
        calls := countSince Command.restarts history } := by
  induction history using List.reverseRecOn with
  | nil =>
    cases s
    cases hcalls
    rfl
  | append_singleton history command ih =>
    rw [after_concat, ih, lastSet_concat, countSince_concat]
    cases command <;> rfl

/-- The session as if it had been opened for its next call. -/
def reopened (s : Session) : Session := { s with seed := s.seed + UInt64.ofNat s.calls, calls := 0 }

theorem source_reopened (s : Session) : s.reopened.source = s.source := by
  exact congrArg Random.Source.seeded (UInt64.add_zero _)

theorem evaluate_reopened (s : Session) (mode : Expansion.Mode) (text : String) :
    (s.reopened.evaluate mode text).1 = (s.evaluate mode text).1 := by
  simp only [evaluate, answer, source_reopened]
  rfl

theorem expand_reopened (s : Session) (mode : Expansion.Mode) (text : String) :
    (s.reopened.expand mode text).1 = (s.expand mode text).1 := by
  simp only [expand, answer, source_reopened]
  rfl

theorem start_eq_ok {files : Folder.Files} {setup : Setup} {orders : String → Compendium.Orders}
    (h : start files setup orders = .ok s) :
    s = ⟨s.compendium, { format := setup.format, escaped := setup.escaped }, setup.seed, 0⟩ := by
  unfold start at h
  split at h
  · cases h
    rfl
  · cases h

end Session

/-! ## Workbenches -/

namespace Workbench

inductive Command where
  | evaluate (mode : Expansion.Mode) (text : String)
  | expandTree (rolls : Bool) (text : String)
  | setFormat (format : Format) (order : Ron.Order)
  | reset (seed : UInt64)

def Command.seed? : Command → Option UInt64
  | .reset seed => some seed
  | _ => none

def Command.format? : Command → Option Format
  | .setFormat format _ => some format
  | _ => none

/-- The order in which the content is read again. -/
def Command.order? : Command → Option Ron.Order
  | .setFormat _ order => some order
  | _ => none

def Command.restarts (c : Command) : Bool := c.seed?.isSome || c.format?.isSome

/-- The workbench after a command, whatever its answer is. One that cannot be opened again stays as it is. -/
def perform (w : Workbench) : Command → Workbench
  | .evaluate mode text => (w.evaluate mode text).2
  | .expandTree rolls text => (w.expandTree rolls text).2
  | .setFormat format order => (w.setFormat format order).toOption.getD w
  | .reset seed => w.reset seed

def after (w : Workbench) (history : List Command) : Workbench := history.foldl perform w

variable {w : Workbench} {content : String} {c : Compendium} {order : Ron.Order}

theorem after_concat (history : List Command) (command : Command) :
    w.after (history ++ [command]) = (w.after history).perform command := by
  simp only [after, List.foldl_append, List.foldl_cons, List.foldl_nil]

theorem openSession_eq (hcontent : Compendium.ofText content order = .ok c) (seed : UInt64) (format : Format) :
    openSession content seed format order = .ok ⟨c, { format }, seed, 0⟩ := by
  unfold openSession
  rw [hcontent]
  rfl

theorem start_eq_ok {seed : UInt64} (h : start content seed order = .ok w) :
    ∃ c, Compendium.ofText content order = .ok c ∧ w = ⟨⟨c, {}, seed, 0⟩, content⟩ := by
  cases hcontent : Compendium.ofText content order with
  | error e =>
    rw [start, openSession, hcontent] at h
    cases h
  | ok c =>
    rw [start, openSession_eq hcontent] at h
    cases h
    exact ⟨c, rfl, rfl⟩

theorem setFormat_eq (hcontent : Compendium.ofText content order = .ok c) (s : Session) (format : Format) :
    setFormat ⟨s, content⟩ format order = .ok ⟨⟨c, { format }, s.seed, 0⟩, content⟩ := by
  rw [setFormat, openSession_eq hcontent]
  rfl

theorem after_eq (hcontent : Compendium.ofText content order = .ok c) (seed : UInt64) (history : List Command) :
    ∃ d, Compendium.ofText content (lastSet Command.order? order history) = .ok d ∧
      after ⟨⟨c, {}, seed, 0⟩, content⟩ history =
        ⟨⟨d, { format := lastSet Command.format? .markdown history }, lastSet Command.seed? seed history,
          countSince Command.restarts history⟩, content⟩ := by
  induction history using List.reverseRecOn with
  | nil => exact ⟨c, hcontent, rfl⟩
  | append_singleton history command ih =>
    obtain ⟨d, hread, hafter⟩ := ih
    rw [after_concat, hafter, lastSet_concat, lastSet_concat, lastSet_concat, countSince_concat]
    cases command with
    | evaluate mode text => exact ⟨d, hread, rfl⟩
    | expandTree rolls text => exact ⟨d, hread, rfl⟩
    | setFormat format again =>
      obtain ⟨d', hread', -⟩ := Compendium.exists_alike_of_ofText hread again
      refine ⟨d', hread', ?_⟩
      rw [perform, setFormat_eq hread']
      rfl
    | reset seed => exact ⟨d, hread, rfl⟩

end Workbench

/-! ## Answers -/

open Workbench (openSession)

end Tabletop
