import Tabletop.Proofs.Expansion.Completion
import Tabletop.Proofs.Expansion.Groups
import Tabletop.Proofs.Expansion.Resolve
import Tabletop.Proofs.Expansion.Run
import Tabletop.Render.Standard

/-!
# Capacity

Content may refer to itself, so nothing but the capacity of a tree stops an expansion. Every call that
resolves a placeholder adds a node or fails, and content in which every text refers to something fills the
tree.
-/

namespace Tabletop

open Tabletop.Random

namespace Expander

open Expansion (Mode Progress capacity begun requestsOf rootRequests)
open Placeholder (keptTokens outline)

variable {x : Expander} {mode : Mode} {p q : Progress} {s t u : Source} {calls : Nat}
  {result : Except Expansion.Error Expansion}

/-! ## The loop -/

/--
The loop of an expansion, with no bound on its length: from `p` on it comes to a result by so many calls
that resolve a placeholder. It goes on while something waits and the tree has room.
-/
inductive Loops (x : Expander) (mode : Mode) :
    Progress → Source → Nat → Except Expansion.Error Expansion → Source → Prop where
  | idle {p : Progress} {s : Source} (h : p.waiting = [] ∨ capacity ≤ p.done.tree.size) :
      Loops x mode p s 0 (.ok p.done) s
  | fail {p : Progress} {s t : Source} {r : Expansion.Request} {waiting : List Expansion.Request}
      {e : Expansion.Error} (hroom : p.done.tree.size < capacity) (hw : p.waiting = r :: waiting)
      (h : (x.resolve r.placeholder mode.rolls).run s = some (.error e, t)) :
      Loops x mode p s 1 (.error e) t
  | step {p q : Progress} {s t u : Source} {calls : Nat} {result : Except Expansion.Error Expansion}
      (hroom : p.done.tree.size < capacity) (h : x.Step mode p s q t)
      (hrest : Loops x mode q t calls result u) : Loops x mode p s (calls + 1) result u

theorem Loops.calls_le (h : x.Loops mode p s calls result t) (hp : p.done.tree.size ≤ capacity) :
    p.done.tree.size + calls ≤ capacity := by
  induction h with
  | idle => omega
  | fail hroom => omega
  | step hroom hstep _ ih =>
    have hsize := hstep.size
    have := ih (by omega)
    omega

theorem Loops.size_eq (h : x.Loops mode p s calls result t) {e : Expansion} (he : result = .ok e) :
    e.tree.size = p.done.tree.size + calls := by
  induction h with
  | idle => cases he; rfl
  | fail => cases he
  | step _ hstep _ ih =>
    have hsize := hstep.size
    have := ih he
    omega

theorem loops_of_run {room : Nat} (hroom : p.done.tree.size + room = capacity)
    (h : (x.run mode room p).run s = some (result, t)) : ∃ calls, x.Loops mode p s calls result t := by
  induction room generalizing p s with
  | zero =>
    -- The loop stops here too: the tree is full.
    rw [run, Roll.run_pure] at h
    cases h
    exact ⟨0, .idle (.inr (by omega))⟩
  | succ room ih =>
    rw [run] at h
    split at h
    next hw =>
      cases h
      exact ⟨0, .idle (.inl hw)⟩
    next r waiting hw =>
      rw [Roll.run_bind] at h
      obtain ⟨⟨first, u⟩, hfirst, h⟩ := Option.bind_eq_some_iff.mp h
      cases first with
      | error e =>
        cases h
        exact ⟨1, .fail (by omega) hw hfirst⟩
      | ok node =>
        have hstep : x.Step mode p s (x.added mode r node { p with waiting }) u :=
          ⟨r, waiting, node, hw, hfirst, rfl⟩
        have hsize := hstep.size
        obtain ⟨calls, hrest⟩ := ih (by omega) h
        exact ⟨calls + 1, .step (by omega) hstep hrest⟩

theorem expand_loops {root : Placeholder} (h : (x.expand mode root).run s = some (result, t)) :
    ∃ calls, calls ≤ capacity ∧ x.Loops mode (begun root) s calls result t ∧
      ∀ e, result = .ok e → e.tree.size = calls := by
  have hsize : (begun root).done.tree.size = 0 := rfl
  obtain ⟨calls, hloops⟩ := loops_of_run (p := begun root) (by omega) h
  have hle := hloops.calls_le (by omega)
  refine ⟨calls, by omega, hloops, fun e he => ?_⟩
  have := hloops.size_eq he
  omega

/-! ## Content that never runs dry -/

/-- The plain text of the entity holds a token that refers to an entity. -/
def Refers (x : Expander) (e : Entity) : Prop :=
  ∃ token ∈ keptTokens (x.readText e none).toList, (outline token).entity ≠ ""

instance (x : Expander) (e : Entity) : Decidable (x.Refers e) :=
  inferInstanceAs
    (Decidable (∃ token ∈ keptTokens (x.readText e none).toList, (outline token).entity ≠ ""))

theorem requestsOf_map (nested : List Placeholder) :
    (requestsOf ⟨true, false⟩ nested).map (·.placeholder) = nested.filter fun p => !p.isBareRoll := by
  simp [requestsOf]

theorem requestsOf_of_refers {p : Placeholder} {node : Resolved}
    (h : (x.resolve p false).run s = some (.ok node, t)) (hrefers : x.Refers node.entity) :
    requestsOf ⟨true, false⟩ node.nested ≠ [] := by
  obtain ⟨-, houtcome, u, -, hread⟩ := resolve_ok h
  have hnone : node.outcome = none := by simpa using houtcome
  rw [hnone] at hread
  have hmap := Placeholder.map_entity (Placeholder.parse_ok (read_ok_iff.mp hread))
  obtain ⟨token, htoken, hentity⟩ := hrefers
  have hmem : (outline token).entity ∈ node.nested.map (·.entity) := by
    rw [hmap]
    exact List.mem_map_of_mem htoken
  obtain ⟨r, hr, hname⟩ := List.mem_map.mp hmem
  have hbare : r.isBareRoll = false := by
    rw [← hname] at hentity
    simpa [Placeholder.isBareRoll] using hentity
  have hasked : r ∈ (requestsOf ⟨true, false⟩ node.nested).map (·.placeholder) := by
    simp [requestsOf_map, hr, hbare]
  intro hnil
  simp [hnil] at hasked

theorem waiting_step (hrefers : ∀ name e, x.lookup name = .ok e → x.Refers e)
    (h : x.Step ⟨true, false⟩ p s q t) : q.waiting ≠ [] := by
  obtain ⟨r, waiting, node, -, hnode, rfl⟩ := h
  have hlookup := (resolve_ok hnode).1
  have hne := requestsOf_of_refers hnode (hrefers _ _ hlookup)
  simp [added, hne]

theorem size_eq_capacity {root : Placeholder} {e : Expansion}
    (hrefers : ∀ name e, x.lookup name = .ok e → x.Refers e) (hbare : root.isBareRoll = false)
    (hquantity : 0 < root.quantity) (h : (x.expand ⟨true, false⟩ root).run s = some (.ok e, t)) :
    e.tree.size = capacity := by
  have hbegun : (begun root).waiting ≠ [] := by
    have hmap : (begun root).waiting.map (·.placeholder) = Expansion.repeated root := by
      simp [begun, rootRequests, hbare]
    intro hnil
    rw [hnil, Expansion.repeated, capacity] at hmap
    have := congrArg List.length hmap
    simp at this
    omega
  -- Something waits at the start and behind every step, so only the full tree can end the run.
  obtain ⟨q, rfl, hwaiting, hle, hlt⟩ :=
    expand_invariant (I := fun p _ => p.waiting ≠ []) hbegun
      (fun _ hstep => waiting_step hrefers hstep) h
  by_contra hne
  exact hwaiting (hlt (by omega))

/--
Whatever content refers to, an expansion ends wherever its rolls do, with no more placeholders resolved than a tree
takes nodes. Where every text refers to an entity, an unrolled one fills the tree.
-/
theorem expand_ends_at_capacity (x : Expander) (mode : Mode) (root : Placeholder) :
    (∀ word, Lively word → (x.expand mode root).Completes word) ∧
      (∀ s result t, (x.expand mode root).run s = some (result, t) →
        ∃ calls, calls ≤ capacity ∧ x.Loops mode (begun root) s calls result t ∧
          ∀ e, result = .ok e → e.tree.size = calls) ∧
      x.expand mode root = x.rounds mode (.begun root) ∧
      ((∀ name e, x.lookup name = .ok e → x.Refers e) → root.isBareRoll = false → 0 < root.quantity →
        ∀ s e t, (x.expand ⟨true, false⟩ root).run s = some (.ok e, t) → e.tree.size = capacity) := by
  refine ⟨fun word hword => completes_expand hword x mode root, ?_, expand_eq_rounds x mode root, ?_⟩
  · intro s result t h
    exact expand_loops h
  · intro hrefers hbare hquantity s e t h
    exact size_eq_capacity hrefers hbare hquantity h

def chase : Expander where
  lookup
    | "cat" => .ok (.ofEffect "Cat" "Rolls \x7b1d4\x7d and goes for the \x7b2 rat\x7d.")
    | "rat" => .ok (.ofEffect "Rat" "Flees from the \x7bcat\x7d.")
    | name => .error (.notFound name)
  renderer := .standard
  options := {}

theorem expand_ends_at_capacity_chase :
    ∃ e t calls,
      (chase.expand ⟨true, false⟩ (.ofEntity "cat" 3)).run (.ofStream (fun _ => 0) 200) =
        some (.ok e, t) ∧
      e.tree.size = capacity ∧ calls = capacity ∧
      chase.Loops ⟨true, false⟩ (begun (.ofEntity "cat" 3)) (.ofStream (fun _ => 0) 200) calls (.ok e) t ∧
      (chase.expand ⟨true, false⟩ (.ofEntity "cat" 3)).Completes surges ∧
      (chase.rounds ⟨true, false⟩ (.begun (.ofEntity "cat" 3))).run (.ofStream (fun _ => 0) 200) = some (.ok e, t) := by
  have hnames :
      (((chase.expand ⟨true, false⟩ (.ofEntity "cat" 3)).run (.ofStream (fun _ => 0) 200)).map
          fun p => p.1.toOption.map fun (e : Expansion) => e.tree.placeholders.take 5 |>.map (·.entity)) =
        some (some ["cat", "cat", "cat", "rat", "rat"]) := by
    decide +kernel
  have hcat : chase.Refers
      (.ofEffect "Cat" "Rolls \x7b1d4\x7d and goes for the \x7b2 rat\x7d.") := by
    decide +kernel
  have hrat : chase.Refers (.ofEffect "Rat" "Flees from the \x7bcat\x7d.") := by
    decide +kernel
  have hrefers (name : String) (e : Entity) (h : chase.lookup name = .ok e) : chase.Refers e := by
    unfold chase at h
    dsimp only at h
    split at h
    · cases h
      exact hcat
    · cases h
      exact hrat
    · cases h
  obtain ⟨e, t, hrun, -⟩ := Roll.exists_run_of_map hnames
  obtain ⟨hends, hloops, hrounds, hfills⟩ := expand_ends_at_capacity chase ⟨true, false⟩ (.ofEntity "cat" 3)
  have hsize := hfills hrefers (by decide) (by decide) _ _ _ hrun
  obtain ⟨calls, -, hcalls, hcount⟩ := hloops _ _ _ hrun
  refine ⟨e, t, calls, hrun, hsize, ?_, hcalls, hends _ lively_surges, hrounds ▸ hrun⟩
  rw [← hcount e rfl, hsize]

end Expander

end Tabletop
