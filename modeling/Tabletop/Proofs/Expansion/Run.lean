import Tabletop.Expansion.Basic
import Tabletop.Proofs.Random.Run

/-!
# Runs of an expansion

An expansion takes one step for each node. What every step keeps holds at the end, where nothing waits
or the tree is full.
-/

namespace Tabletop

open Tabletop.Random

/-! ## Nodes -/

namespace Tree

def placeholders (t : Tree) : List Placeholder := t.nodes.map (·.placeholder)

theorem map_modify {α β : Type} {f : α → β} {g : α → α} {g' : β → β} (h : ∀ a, f (g a) = g' (f a))
    (l : List α) (i : Nat) : (l.modify i g).map f = (l.map f).modify i g' := by
  apply List.ext_getElem?
  intro j
  simp only [List.getElem?_map, List.getElem?_modify]
  split
  · cases l[j]? <;> simp [h]
  · simp

theorem linked_map {α : Type} (f : Node → α) (hf : ∀ node children, f { node with children } = f node)
    (nodes : List Node) (parent : Option Nat) (child : Nat) :
    (linked nodes parent child).map f = nodes.map f := by
  cases parent with
  | none => rfl
  | some p =>
    have hsame (node : Node) : f { node with children := node.children ++ [child] } = id (f node) :=
      hf node _
    rw [linked, map_modify hsame, List.modify_id]

theorem push_map {α : Type} (f : Node → α) (hf : ∀ node children, f { node with children } = f node)
    (t : Tree) (parent : Option Nat) (p : Placeholder) (unique : Bool) (text : String) :
    (t.push parent p unique text).nodes.map f =
      t.nodes.map f ++ [f ⟨t.size, p.entity, [], unique, text, p⟩] := by
  simp [push, linked_map f hf]

@[simp]
theorem push_size (t : Tree) (parent : Option Nat) (p : Placeholder) (unique : Bool) (text : String) :
    (t.push parent p unique text).size = t.size + 1 := by
  have h := congrArg List.length (push_map (fun _ => ()) (fun _ _ => rfl) t parent p unique text)
  simpa [size] using h

@[simp]
theorem push_placeholders (t : Tree) (parent : Option Nat) (p : Placeholder) (unique : Bool)
    (text : String) : (t.push parent p unique text).placeholders = t.placeholders ++ [p] :=
  push_map (·.placeholder) (fun _ _ => rfl) t parent p unique text

@[simp]
theorem length_placeholders (t : Tree) : t.placeholders.length = t.size := by
  simp [placeholders, size]

theorem id_eq_of_ids {t : Tree} (hids : t.nodes.map (·.id) = List.range t.size) {i : Nat} {node : Node}
    (hnode : t.get? i = some node) : node.id = i := by
  have hmap := congrArg (·[i]?) hids
  simp only [List.getElem?_map, show t.nodes[i]? = some node from hnode, Option.map_some] at hmap
  obtain ⟨_, hi⟩ := List.getElem?_eq_some_iff.mp hmap.symm
  simpa using hi.symm

theorem lastId?_eq (t : Tree) : t.lastId? = if t.size = 0 then none else some (t.size - 1) := by
  simp [lastId?, isEmpty, size]

/-! ## Changed nodes -/

def map (f : Node → Node) (t : Tree) : Tree := ⟨t.nodes.map f⟩

variable {f : Node → Node}

@[simp]
theorem map_size (t : Tree) : (t.map f).size = t.size := by simp [map, size]

@[simp]
theorem map_lastId? (t : Tree) : (t.map f).lastId? = t.lastId? := by
  simp [lastId?, isEmpty, size, map]

theorem map_push (hchildren : ∀ node, (f node).children = node.children)
    (hf : ∀ node children, f { node with children } = { f node with children }) {t : Tree}
    {p q : Placeholder} {unique : Bool} {text text' : String}
    (hnew : f ⟨t.size, p.entity, [], unique, text, p⟩ = ⟨t.size, q.entity, [], unique, text', q⟩)
    (parent : Option Nat) :
    (t.push parent p unique text).map f = (t.map f).push parent q unique text' := by
  have hlinked : (linked t.nodes parent t.size).map f = linked (t.nodes.map f) parent t.size := by
    cases parent with
    | none => rfl
    | some p => exact map_modify (fun node => by rw [hf, hchildren]) t.nodes p
  rw [push, push, map_size, map, List.map_append, hlinked, List.map_singleton, hnew]
  rfl

end Tree

/-! ## Steps -/

namespace Expansion

def begun (root : Placeholder) : Progress := ⟨{}, none, rootRequests root⟩

@[simp]
theorem group_map (l : List Placeholder) : (group l).map (·.placeholder) = l := by
  cases l with
  | nil => rfl
  | cons p rest => simp [group, Function.comp_def]

end Expansion

namespace Expander

open Expansion (Mode Progress)

variable {x : Expander} {mode : Mode}

/-- The first request that waits is resolved, and its node is added. -/
def Step (x : Expander) (mode : Mode) (p : Progress) (s : Source) (q : Progress) (t : Source) : Prop :=
  ∃ r waiting node, p.waiting = r :: waiting ∧
    (x.resolve r.placeholder mode.rolls).run s = some (.ok node, t) ∧
    q = x.added mode r node { p with waiting }

theorem Step.size {p q : Progress} {s t : Source} (h : x.Step mode p s q t) :
    q.done.tree.size = p.done.tree.size + 1 := by
  obtain ⟨r, waiting, node, -, -, rfl⟩ := h
  simp [added]

theorem run_invariant {I : Progress → Source → Prop}
    (hstep : ∀ {p s q t}, I p s → x.Step mode p s q t → I q t) {room : Nat} {p : Progress} {s t : Source}
    {e : Expansion} (hI : I p s) (h : (x.run mode room p).run s = some (.ok e, t)) :
    ∃ q, q.done = e ∧ I q t ∧ e.tree.size ≤ p.done.tree.size + room ∧
      (e.tree.size < p.done.tree.size + room → q.waiting = []) := by
  -- The induction is on the room left. Every step takes one of it.
  induction room generalizing p s with
  | zero =>
    rw [run, Roll.run_pure] at h
    cases h
    exact ⟨p, rfl, hI, by omega, by omega⟩
  | succ room ih =>
    rw [run] at h
    split at h
    next hw =>
      cases h
      exact ⟨p, rfl, hI, by omega, fun _ => hw⟩
    next r waiting hw =>
      obtain ⟨node, u, hnode, h⟩ := Roll.run_bind_ok_iff.mp h
      have hs : x.Step mode p s (x.added mode r node { p with waiting }) u :=
        ⟨r, waiting, node, hw, hnode, rfl⟩
      obtain ⟨q, hq, hIq, hle, hlt⟩ := ih (hstep hI hs) h
      rw [hs.size] at hle hlt
      exact ⟨q, hq, hIq, by omega, fun hsize => hlt (by omega)⟩

/-- What holds at the start, and is kept by every step, holds at the end of an expansion. -/
theorem expand_invariant {I : Progress → Source → Prop} {root : Placeholder} {s t : Source}
    {e : Expansion} (hbegun : I (Expansion.begun root) s)
    (hstep : ∀ {p s q t}, I p s → x.Step mode p s q t → I q t)
    (h : (x.expand mode root).run s = some (.ok e, t)) :
    ∃ q, q.done = e ∧ I q t ∧ e.tree.size ≤ Expansion.capacity ∧
      (e.tree.size < Expansion.capacity → q.waiting = []) := by
  obtain ⟨q, hq, hI, hle, hlt⟩ := run_invariant hstep hbegun h
  have h0 : (Expansion.begun root).done.tree.size = 0 := rfl
  rw [h0, Nat.zero_add] at hle hlt
  exact ⟨q, hq, hI, hle, hlt⟩

end Expander

end Tabletop
