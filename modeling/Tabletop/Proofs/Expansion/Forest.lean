import Mathlib.Data.List.Nodup
import Tabletop.Proofs.Expansion.Roots
import Tabletop.Render.Standard

/-!
# The shape of an expansion

The roots of an expansion come first and stand under no node. Every other node stands under just one, and
the children of a node are the nodes right behind it.
-/

namespace Tabletop

open Tabletop.Random

namespace Tree

variable {t : Tree} {roots parent : Nat} {p : Placeholder} {unique : Bool} {text : String}

/-! ## Forests -/

/-- Ids are positions, and all nodes from `roots` on are children, each in a row behind its parent. -/
structure Forest (t : Tree) (roots : Nat) : Prop where
  ids : t.nodes.map (·.id) = List.range t.size
  rows : ∀ node ∈ t.nodes, node.children = List.range' (node.id + 1) node.children.length
  covered : t.nodes.flatMap (·.children) = List.range' roots (t.size - roots)

/-- All nodes behind `parent` are its children, and they have none themselves. -/
def OpenAt (t : Tree) (parent : Nat) : Prop :=
  ∃ before node after, t.nodes = before ++ node :: after ∧ before.length = parent ∧
    node.children.length = after.length ∧ ∀ n ∈ after, n.children = []

theorem forest_empty (roots : Nat) : Forest {} roots := by
  constructor
  · rfl
  · simp
  · simp [size]

theorem Forest.id_eq (h : t.Forest roots) {i : Nat} {node : Node} (hnode : t.nodes[i]? = some node) :
    node.id = i := id_eq_of_ids h.ids hnode

theorem Forest.row_eq (h : t.Forest roots) {id : Nat} {node : Node} (hnode : t.get? id = some node) :
    node.children = List.range' (id + 1) node.children.length := by
  have hrow := h.rows node (List.mem_of_getElem? hnode)
  rwa [h.id_eq hnode] at hrow

theorem Forest.succ_mem (h : t.Forest roots) {id : Nat} {node : Node} (hnode : t.get? id = some node)
    (hsome : node.children ≠ []) : id + 1 ∈ node.children := by
  have hpos : 0 < node.children.length := List.length_pos_of_ne_nil hsome
  rw [h.row_eq hnode, List.mem_range'_1]
  omega

theorem push_ids (h : t.nodes.map (·.id) = List.range t.size) (parent : Option Nat) :
    (t.push parent p unique text).nodes.map (·.id) = List.range (t.push parent p unique text).size := by
  rw [push_map (·.id) (fun _ _ => rfl), h, push_size, List.range_succ]

theorem Forest.push_root (h : t.Forest roots) (hlt : t.size < roots) :
    (t.push none p unique text).Forest roots := by
  refine ⟨push_ids h.ids none, ?_, ?_⟩
  · intro node hnode
    rcases List.mem_append.mp hnode with hnode | hnode
    · exact h.rows node hnode
    · rw [List.mem_singleton.mp hnode]
      rfl
  · have hnone : t.size - roots = 0 := by omega
    have hstill : t.size + 1 - roots = 0 := by omega
    have hcovered := h.covered
    rw [hnone] at hcovered
    rw [push_size, hstill, push, linked, List.flatMap_append, hcovered]
    rfl

theorem modify_append_cons {α : Type} (f : α → α) (before : List α) (a : α) (after : List α) :
    (before ++ a :: after).modify before.length f = before ++ f a :: after := by
  induction before with
  | nil => exact List.modify_zero_cons f a after
  | cons b before ih => rw [List.cons_append, List.length_cons, List.modify_succ_cons, ih, List.cons_append]

theorem Forest.push_child (h : t.Forest roots) (hle : roots ≤ t.size) (hopen : t.OpenAt parent) :
    (t.push (some parent) p unique text).Forest roots ∧
      (t.push (some parent) p unique text).OpenAt parent := by
  obtain ⟨before, node, after, hnodes, rfl, hrow, hchildless⟩ := hopen
  have hsize : t.size = before.length + 1 + after.length := by
    rw [size, hnodes, List.length_append, List.length_cons]
    omega
  have hid : node.id = before.length := h.id_eq (by simp [hnodes])
  have hpush : (t.push (some before.length) p unique text).nodes =
      before ++ { node with children := node.children ++ [t.size] } ::
        (after ++ [⟨t.size, p.entity, [], unique, text, p⟩]) := by
    rw [push, linked, hnodes, modify_append_cons, List.append_assoc, List.cons_append]
  have hrows := h.rows
  have hcovered := h.covered
  simp only [hnodes, List.forall_mem_append, List.forall_mem_cons] at hrows
  have hchildren : node.children = List.range' (before.length + 1) after.length := by
    rw [hrows.2.1, hid, hrow]
  have hnone : after.flatMap (·.children) = [] := List.flatMap_eq_nil_iff.mpr hchildless
  refine ⟨⟨push_ids h.ids _, ?_, ?_⟩, before, _, _, hpush, rfl, ?_, ?_⟩
  · simp only [hpush, List.forall_mem_append, List.forall_mem_cons]
    refine ⟨hrows.1, ?_, hrows.2.2, rfl, by simp⟩
    rw [List.length_append, List.length_singleton, List.range'_1_concat, ← hrows.2.1, hid, hrow, hsize]
  · rw [hnodes, List.flatMap_append, List.flatMap_cons, hnone, List.append_nil] at hcovered
    have hmore : t.size + 1 - roots = t.size - roots + 1 := by omega
    have hlast : roots + (t.size - roots) = t.size := by omega
    rw [push_size, hmore, List.range'_1_concat, hlast, ← hcovered, hpush]
    simp [hnone]
  · simp [hrow]
  · rw [List.forall_mem_append]
    exact ⟨hchildless, by simp⟩

theorem Forest.child_lt (h : t.Forest roots) {node : Node} (hnode : node ∈ t.nodes) {child : Nat}
    (hchild : child ∈ node.children) : roots ≤ child ∧ child < t.size := by
  have hmem : child ∈ t.nodes.flatMap (·.children) := List.mem_flatMap.mpr ⟨node, hnode, hchild⟩
  rw [h.covered, List.mem_range'_1] at hmem
  omega

/-- The newest node is always open: a child of it would have to be newer. -/
theorem Forest.openAt_last (h : t.Forest roots) (hpos : 0 < t.size) : t.OpenAt (t.size - 1) := by
  rcases List.eq_nil_or_concat t.nodes with hnil | ⟨before, node, hnodes⟩
  · rw [size, hnil] at hpos
    cases hpos
  rw [List.concat_eq_append] at hnodes
  have hsize : t.size = before.length + 1 := by rw [size, hnodes, List.length_append, List.length_singleton]
  have hnode : t.get? before.length = some node := by simp [get?, hnodes]
  refine ⟨before, node, [], hnodes, by omega, ?_, by simp⟩
  rw [List.length_nil, List.length_eq_zero_iff]
  by_contra hsome
  have := (h.child_lt (List.mem_of_getElem? hnode) (h.succ_mem hnode hsome)).2
  omega

theorem Forest.existsUnique_parent (h : t.Forest roots) {child : Nat} (hle : roots ≤ child)
    (hlt : child < t.size) : ∃! parent, ∃ node, t.get? parent = some node ∧ child ∈ node.children := by
  have hmem : child ∈ t.nodes.flatMap (·.children) := by
    rw [h.covered, List.mem_range'_1]
    omega
  obtain ⟨node, hnode, hchild⟩ := List.mem_flatMap.mp hmem
  obtain ⟨parent, hparent⟩ := List.getElem?_of_mem hnode
  refine ⟨parent, ⟨node, hparent, hchild⟩, ?_⟩
  rintro other ⟨node', hother, hchild'⟩
  have hnodup : (t.nodes.flatMap (·.children)).Nodup := by
    rw [h.covered]
    exact List.nodup_range'
  have hdisjoint := List.pairwise_iff_getElem.mp (List.nodup_flatMap.mp hnodup).2
  obtain ⟨hparent', rfl⟩ := List.getElem?_eq_some_iff.mp hparent
  obtain ⟨hother', rfl⟩ := List.getElem?_eq_some_iff.mp hother
  rcases Nat.lt_trichotomy other parent with hlt | heq | hgt
  · exact absurd hchild (hdisjoint other parent hother' hparent' hlt hchild')
  · exact heq
  · exact absurd hchild' (hdisjoint parent other hparent' hother' hgt hchild)

end Tree

namespace Expander

open Expansion (Mode Progress Phase rootCount capacity)

variable {x : Expander} {mode : Mode} {root : Placeholder} {s t : Source} {e : Expansion}

/-! ## Expansions -/

/-- What is done stands in a forest, and the node that the current group stands under is open. -/
structure Shaped (root : Placeholder) (p : Progress) : Prop where
  phase : Phase root p
  forest : p.done.tree.Forest (rootCount root)
  parent_open : ∀ parent ∈ p.parent, p.done.tree.OpenAt parent

theorem shaped_begun (root : Placeholder) : Shaped root (Expansion.begun root) := by
  refine ⟨Expansion.phase_begun root, Tree.forest_empty _, ?_⟩
  simp [Expansion.begun]

theorem Shaped.step {p q : Progress} (h : Shaped root p) (hstep : x.Step mode p s q t) : Shaped root q := by
  have hphase := phase_step h.phase hstep
  obtain ⟨r, waiting, node, hw, -, rfl⟩ := hstep
  have hnone := isNone_parentOf h.phase hw
  have hparent : (x.added mode r node { p with waiting }).parent = parentOf p r := rfl
  have htree : ∃ unique text, (x.added mode r node { p with waiting }).done.tree =
      p.done.tree.push (parentOf p r) r.placeholder unique text := ⟨_, _, rfl⟩
  obtain ⟨unique, text, htree⟩ := htree
  -- The request is one for the root, or it finds the node that it stands under open.
  cases hparentOf : parentOf p r with
  | none =>
    rw [hparentOf] at hnone htree hparent
    have hlt : p.done.tree.size < rootCount root := of_decide_eq_true hnone.symm
    refine ⟨hphase, ?_, ?_⟩
    · rw [htree]
      exact h.forest.push_root hlt
    · simp [hparent]
  | some parent =>
    rw [hparentOf] at hnone htree hparent
    have hge : rootCount root ≤ p.done.tree.size := Nat.le_of_not_lt (of_decide_eq_false hnone.symm)
    have hopen : p.done.tree.OpenAt parent := by
      unfold parentOf at hparentOf
      split at hparentOf
      next =>
        rw [Tree.lastId?_eq] at hparentOf
        split at hparentOf
        next => cases hparentOf
        next hsize =>
          cases hparentOf
          exact h.forest.openAt_last (Nat.pos_of_ne_zero hsize)
      next => exact h.parent_open parent hparentOf
    have hpush : (p.done.tree.push (some parent) r.placeholder unique text).Forest (rootCount root) ∧
        (p.done.tree.push (some parent) r.placeholder unique text).OpenAt parent :=
      h.forest.push_child hge hopen
    refine ⟨hphase, ?_, ?_⟩
    · rw [htree]
      exact hpush.1
    · rw [hparent, htree]
      rintro other ⟨⟩
      exact hpush.2

theorem rootCount_le_size {q : Progress} (h : Phase root q)
    (hlt : q.done.tree.size < capacity → q.waiting = []) : rootCount root ≤ q.done.tree.size := by
  rcases Nat.lt_or_ge q.done.tree.size capacity with hroom | hfull
  · obtain ⟨later, hlater, -⟩ := h.waiting_eq
    rw [hlt hroom] at hlater
    have hdrop := (List.append_eq_nil_iff.mp hlater.symm).1
    exact List.drop_eq_nil_iff.mp hdrop
  · rw [Expansion.rootCount_eq]
    split <;> omega

/--
An expansion begins with a node for each root. Every further node stands under just one, and the children of a node are
a row right behind it.
-/
theorem expand_forest (h : (x.expand mode root).run s = some (.ok e, t)) :
    ∃ roots, roots = (if root.isBareRoll then 0 else min root.quantity capacity) ∧
      roots ≤ e.tree.size ∧
      (∀ id node, e.tree.get? id = some node → node.id = id ∧
        node.children = List.range' (id + 1) node.children.length ∧
        ∀ child ∈ node.children, roots ≤ child ∧ id < child ∧ child < e.tree.size) ∧
      ∀ child, roots ≤ child → child < e.tree.size →
        ∃! parent, ∃ node, e.tree.get? parent = some node ∧ child ∈ node.children := by
  obtain ⟨q, rfl, hq, -, hlt⟩ :=
    expand_invariant (I := fun p _ => Shaped root p) (shaped_begun root) (fun h hstep => h.step hstep) h
  refine ⟨rootCount root, Expansion.rootCount_eq root, rootCount_le_size hq.phase hlt, ?_, ?_⟩
  · intro id node hnode
    have hid := hq.forest.id_eq hnode
    have hmem : node ∈ q.done.tree.nodes := List.mem_of_getElem? hnode
    have hrow := hq.forest.rows node hmem
    rw [hid] at hrow
    refine ⟨hid, hrow, fun child hchild => ?_⟩
    obtain ⟨hroots, hsize⟩ := hq.forest.child_lt hmem hchild
    rw [hrow, List.mem_range'_1] at hchild
    exact ⟨hroots, by omega, hsize⟩
  · intro child hle hsize
    exact hq.forest.existsUnique_parent hle hsize

def warren : Expander where
  lookup
    | "warren" => .ok (.ofEffect "Warren" "\x7b2 rat\x7d dig a \x7bburrow\x7d.")
    | "rat" => .ok (.ofEffect "Rat" "Squeaks.")
    | "burrow" => .ok (.ofEffect "Burrow" "Dark.")
    | name => .error (.notFound name)
  renderer := .standard
  options := {}

/-- Two warrens, the second with the rats of both: each group stands under what is newest in its turn. -/
theorem expand_forest_warren :
    ∃ e t,
      (warren.expand ⟨true, true⟩ (.ofEntity "warren" 2)).run (.ofStream (fun _ => 0) 200) =
        some (.ok e, t) ∧
      e.tree.nodes.map (·.children) = [[], [2, 3], [], [4], [5, 6], [], [7], []] ∧
      ∃! parent, ∃ node, e.tree.get? parent = some node ∧ 7 ∈ node.children := by
  have hchildren :
      (((warren.expand ⟨true, true⟩ (.ofEntity "warren" 2)).run (.ofStream (fun _ => 0) 200)).map
          fun p => p.1.toOption.map fun (e : Expansion) => e.tree.nodes.map (·.children)) =
        some (some [[], [2, 3], [], [4], [5, 6], [], [7], []]) := by
    decide +kernel
  obtain ⟨e, t, hrun, hchildren⟩ := Roll.exists_run_of_map hchildren
  obtain ⟨roots, hroots, -, -, hparent⟩ := expand_forest hrun
  have hsize : e.tree.size = 8 := by
    have := congrArg List.length hchildren
    simpa [Tree.size] using this
  have htwo : roots = 2 := by
    rw [hroots]
    decide
  exact ⟨e, t, hrun, hchildren, hparent 7 (by omega) (by omega)⟩

end Expander

end Tabletop
