import Tabletop.Proofs.Expansion.Run
import Tabletop.Render.Standard

/-!
# Breadth first

The nodes of an expansion are its requests in the order in which they come up: the root as often as it
is asked for, then what the first node asks for, then what the second asks for, and so on. Only the
capacity of a tree cuts this list off.
-/

namespace Tabletop

open Tabletop.Random

/-! ## Lists that agree from the front -/

theorem take_append_congr {α : Type} {n : Nat} {a a' b b' : List α} (ha : a.take n = a'.take n)
    (hb : b.take n = b'.take n) : (a ++ b).take n = (a' ++ b').take n := by
  have cut (c d : List α) : (c ++ d).take n = (c.take n ++ d.take n).take n := by
    rw [List.take_append, List.take_append, List.take_take, List.take_take, List.length_take,
      Nat.min_self]
    congr 2
    omega
  rw [cut a b, cut a' b', ha, hb]

theorem take_flatMap_congr {α β : Type} {n : Nat} {f g : α → List β}
    (h : ∀ a, (f a).take n = (g a).take n) (l : List α) :
    (l.flatMap f).take n = (l.flatMap g).take n := by
  induction l with
  | nil => rfl
  | cons a l ih => exact take_append_congr (h a) ih

namespace Expansion

/-! ## What is asked for -/

def rootWanted (root : Placeholder) : List Placeholder :=
  if root.isBareRoll then [] else List.replicate root.quantity root

/--
What a text asks for: every placeholder that refers to an entity, in order. Rolled, each is repeated by
its quantity.
-/
def wanted (mode : Mode) (nested : List Placeholder) : List Placeholder :=
  let referring := nested.filter fun p => !p.isBareRoll
  if !mode.expands then []
  else if mode.rolls then referring.flatMap fun p => List.replicate p.quantity p
  else referring

theorem repeated_take (p : Placeholder) :
    (repeated p).take capacity = (List.replicate p.quantity p).take capacity := by
  rw [repeated, List.take_replicate, List.take_replicate]
  congr 1
  omega

theorem rootRequests_take (root : Placeholder) :
    ((rootRequests root).map (·.placeholder)).take capacity = (rootWanted root).take capacity := by
  unfold rootRequests rootWanted
  split
  · rfl
  · rw [group_map]
    exact repeated_take root

theorem requestsOf_take (mode : Mode) (nested : List Placeholder) :
    ((requestsOf mode nested).map (·.placeholder)).take capacity =
      (wanted mode nested).take capacity := by
  unfold requestsOf wanted
  split
  · rfl
  · split
    · simp only [List.map_flatMap, group_map]
      exact take_flatMap_congr repeated_take _
    · rw [group_map]

end Expansion

namespace Expander

open Expansion (Mode Progress capacity rootRequests requestsOf rootWanted wanted)

variable {x : Expander} {mode : Mode} {root : Placeholder} {s s' : Source} {e : Expansion}

/-! ## The queue -/

/--
The queue of an expansion from `s` on. Its nodes, resolved in the order of their ids, have asked for
just what the nodes after the root and the waiting requests stand for.
-/
def Queued (x : Expander) (mode : Mode) (root : Placeholder) (s : Source) (p : Progress) (t : Source) :
    Prop :=
  ∃ resolved,
    (p.done.tree.placeholders.mapM (x.resolve · mode.rolls)).run s = some (.ok resolved, t) ∧
    p.done.tree.placeholders ++ p.waiting.map (·.placeholder) =
      (rootRequests root).map (·.placeholder) ++
        resolved.flatMap fun node => (requestsOf mode node.nested).map (·.placeholder)

theorem queued_begun : x.Queued mode root s (Expansion.begun root) s := by
  refine ⟨[], rfl, ?_⟩
  simp [Expansion.begun, Tree.placeholders]

theorem Queued.step {p q : Progress} {t u : Source} (h : x.Queued mode root s p t)
    (hstep : x.Step mode p t q u) : x.Queued mode root s q u := by
  obtain ⟨resolved, hrun, hqueue⟩ := h
  obtain ⟨r, waiting, node, hw, hnode, rfl⟩ := hstep
  refine ⟨resolved ++ [node], ?_, ?_⟩
  · simp only [added, Tree.push_placeholders]
    rw [List.mapM_append]
    refine Roll.run_bind_ok_iff.mpr ⟨resolved, t, hrun, ?_⟩
    refine Roll.run_bind_ok_iff.mpr ⟨[node], u, ?_, rfl⟩
    rw [List.mapM_cons]
    refine Roll.run_bind_ok_iff.mpr ⟨node, u, hnode, rfl⟩
  · rw [hw, List.map_cons] at hqueue
    simp only [added, Tree.push_placeholders, List.map_append, List.flatMap_append, List.flatMap_cons,
      List.flatMap_nil, List.append_nil]
    calc
      _ = (p.done.tree.placeholders ++ r.placeholder :: waiting.map (·.placeholder)) ++
            (requestsOf mode node.nested).map (·.placeholder) := by simp
      _ = _ := by rw [hqueue, List.append_assoc]

def allWanted (mode : Mode) (root : Placeholder) (resolved : List Resolved) : List Placeholder :=
  rootWanted root ++ resolved.flatMap fun node => wanted mode node.nested

/-- At the end of an expansion the queue was emptied, or cut off where the tree was full. -/
theorem Queued.placeholders_eq_take {p : Progress} {t : Source} (h : x.Queued mode root s p t)
    (hle : p.done.tree.size ≤ capacity) (hlt : p.done.tree.size < capacity → p.waiting = []) :
    ∃ resolved,
      (p.done.tree.placeholders.mapM (x.resolve · mode.rolls)).run s = some (.ok resolved, t) ∧
      p.done.tree.placeholders = (allWanted mode root resolved).take capacity := by
  obtain ⟨resolved, hrun, hqueue⟩ := h
  refine ⟨resolved, hrun, ?_⟩
  have hcut : p.done.tree.placeholders =
      (p.done.tree.placeholders ++ p.waiting.map (·.placeholder)).take capacity := by
    rcases Nat.lt_or_eq_of_le hle with hroom | hfull
    · rw [hlt hroom, List.map_nil, List.append_nil, List.take_of_length_le]
      rw [Tree.length_placeholders]
      exact hle
    · rw [List.take_append_of_le_length, List.take_of_length_le]
      · rw [Tree.length_placeholders]
        exact hle
      · rw [Tree.length_placeholders]
        exact Nat.le_of_eq hfull.symm
  rw [hcut, hqueue]
  exact take_append_congr (Expansion.rootRequests_take root)
    (take_flatMap_congr (fun node => Expansion.requestsOf_take mode node.nested) resolved)

/--
The nodes of an expansion are the first of the placeholders that the root and the nodes themselves ask for, up to the
capacity of a tree.
-/
theorem expand_breadth_first (h : (x.expand mode root).run s = some (.ok e, s')) :
    ∃ resolved,
      (e.tree.placeholders.mapM (x.resolve · mode.rolls)).run s = some (.ok resolved, s') ∧
      e.tree.placeholders = (allWanted mode root resolved).take capacity ∧
      (e.tree.size < capacity → e.tree.placeholders = allWanted mode root resolved) := by
  obtain ⟨q, rfl, hq, hle, hlt⟩ := expand_invariant queued_begun (fun h hstep => h.step hstep) h
  obtain ⟨resolved, hrun, hcut⟩ := hq.placeholders_eq_take hle hlt
  refine ⟨resolved, hrun, hcut, fun hroom => ?_⟩
  have hlength := congrArg List.length hcut
  rw [Tree.length_placeholders, List.length_take] at hlength
  rw [hcut, List.take_of_length_le (by omega)]

def hoard : Expander where
  lookup
    | "hoard" => .ok (.ofEffect "Hoard" "\x7b3d1 coin\x7d, \x7b0 gem\x7d and \x7brat\x7d.")
    | "coin" => .ok (.ofEffect "Coin" "Worth \x7b1d4\x7d.")
    | "rat" => .ok (.ofEffect "Rat" "Squeaks at \x7b2 rat\x7d.")
    | name => .error (.notFound name)
  renderer := .standard
  options := {}

theorem expand_breadth_first_hoard :
    ∃ e s' resolved,
      (hoard.expand ⟨true, true⟩ (.ofEntity "hoard" 20)).run (.ofStream (fun _ => 0) 200) =
        some (.ok e, s') ∧
      e.tree.placeholders.map (·.entity) =
        List.replicate 20 "hoard" ++ (List.replicate 20 ["coin", "coin", "coin", "rat"]).flatten ∧
      e.tree.placeholders =
        (allWanted ⟨true, true⟩ (.ofEntity "hoard" 20) resolved).take capacity := by
  have hnames :
      (((hoard.expand ⟨true, true⟩ (.ofEntity "hoard" 20)).run (.ofStream (fun _ => 0) 200)).map
          fun p => p.1.toOption.map fun (e : Expansion) => e.tree.placeholders.map (·.entity)) =
        some (some (List.replicate 20 "hoard" ++
          (List.replicate 20 ["coin", "coin", "coin", "rat"]).flatten)) := by
    decide +kernel
  obtain ⟨e, s', hrun, hnames⟩ := Roll.exists_run_of_map hnames
  obtain ⟨resolved, -, hcut, -⟩ := expand_breadth_first hrun
  exact ⟨e, s', resolved, hrun, hnames, hcut⟩

end Expander

end Tabletop
