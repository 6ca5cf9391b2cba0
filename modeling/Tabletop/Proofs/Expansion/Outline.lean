import Tabletop.Expansion.Outline
import Tabletop.Proofs.Expansion.Forest
import Tabletop.Proofs.Expansion.Growth
import Tabletop.Shell

/-!
# Outlines

The walk from the roots of a grown tree through all children ends, and it comes by every node once. In the
tree of an expansion it comes by them in the order of their ids.
-/

namespace Tabletop

open Tabletop.Random

namespace Tree

variable {t : Tree} {level room roots : Nat} {ids : List Nat} {lines other : List (Nat × Node)}

/-! ## Walks -/

/--
The lines of a walk from some nodes: each node with its level, then all below it, one level deeper. An id of
no node gives none. A walk that goes round in a circle has no lines at all.
-/
inductive Walks (t : Tree) : (level : Nat) → (ids : List Nat) → (lines : List (Nat × Node)) → Prop where
  | done {level : Nat} : Walks t level [] []
  | missing {level id : Nat} {ids : List Nat} {rest : List (Nat × Node)} (h : t.get? id = none)
      (hrest : Walks t level ids rest) : Walks t level (id :: ids) rest
  | node {level id : Nat} {node : Node} {ids : List Nat} {below rest : List (Nat × Node)}
      (h : t.get? id = some node) (hbelow : Walks t (level + 1) node.children below)
      (hrest : Walks t level ids rest) : Walks t level (id :: ids) ((level, node) :: (below ++ rest))

theorem Walks.unique (h : t.Walks level ids lines) (h' : t.Walks level ids other) : lines = other := by
  induction h generalizing other with
  | done =>
    cases h'
    rfl
  | missing hid _ ih =>
    cases h' with
    | missing _ hrest => exact ih hrest
    | node hnode => simp [hid] at hnode
  | node hnode _ _ ihbelow ihrest =>
    cases h' with
    | missing hid => simp [hid] at hnode
    | node hnode' hbelow hrest =>
      rw [hnode, Option.some.injEq] at hnode'
      subst hnode'
      rw [ihbelow hbelow, ihrest hrest]

theorem Grown.walks_below (h : t.Grown) (room level : Nat) {ids : List Nat}
    (hroom : ∀ id ∈ ids, t.size ≤ room + id) : t.Walks level ids (ids.flatMap (t.below room level)) := by
  induction room generalizing level ids with
  | zero =>
    induction ids with
    | nil => exact .done
    | cons id ids ih =>
      rw [List.forall_mem_cons] at hroom
      have hnone : t.get? id = none := List.getElem?_eq_none_iff.mpr (by simpa [size] using hroom.1)
      exact .missing hnone (ih hroom.2)
  | succ room ihroom =>
    induction ids with
    | nil => exact .done
    | cons id ids ih =>
      rw [List.forall_mem_cons] at hroom
      rw [List.flatMap_cons, below]
      cases hnode : t.get? id with
      | none => exact .missing hnode (ih hroom.2)
      | some node =>
        refine .node hnode (ihroom (level + 1) fun child hchild => ?_) (ih hroom.2)
        have := (h.child_lt hnode child hchild).1
        omega

theorem Grown.walks_outline (h : t.Grown) : t.Walks 0 (t.roots.map (·.id)) t.outline := by
  have hwalks := h.walks_below t.size 0 fun id (_ : id ∈ t.roots.map (·.id)) => Nat.le_add_right t.size id
  rwa [List.flatMap_map] at hwalks

/-! ## Every node once -/

theorem Walks.get? (h : t.Walks level ids lines) (hgrown : t.Grown) :
    ∀ line ∈ lines, t.get? line.2.id = some line.2 := by
  induction h with
  | done => simp
  | missing _ _ ih => exact ih
  | node hnode _ _ ihbelow ihrest =>
    rw [List.forall_mem_cons, List.forall_mem_append]
    refine ⟨?_, ihbelow, ihrest⟩
    rw [hgrown.id_eq hnode]
    exact hnode

theorem Walks.count (h : t.Walks level ids lines) (hgrown : t.Grown) (hids : ∀ id ∈ ids, id < t.size)
    (a : Nat) :
    (lines.map (·.2.id)).count a = ids.count a + (lines.flatMap (·.2.children)).count a := by
  induction h with
  | done => rfl
  | missing hnone =>
    rw [List.forall_mem_cons] at hids
    have hle : t.size ≤ _ := List.getElem?_eq_none_iff.mp hnone
    omega
  | node hnode _ _ ihbelow ihrest =>
    rw [List.forall_mem_cons] at hids
    have hbelow := ihbelow fun child hchild => (hgrown.child_lt hnode child hchild).2
    have hrest := ihrest hids.2
    simp only [List.map_cons, List.map_append, List.flatMap_cons, List.flatMap_append, List.count_cons,
      List.count_append, hgrown.id_eq hnode]
    omega

theorem Grown.count_flatMap (h : t.Grown) {parent child : Nat} {node : Node}
    (hparent : t.get? parent = some node) (hchild : child ∈ node.children)
    (hlines : ∀ line ∈ lines, t.get? line.2.id = some line.2) :
    (lines.flatMap (·.2.children)).count child = (lines.map (·.2.id)).count parent := by
  induction lines with
  | nil => rfl
  | cons line lines ih =>
    rw [List.forall_mem_cons] at hlines
    have hcount : line.2.children.count child = if line.2.id = parent then 1 else 0 := by
      split
      next hid =>
        have hline := hlines.1
        rw [hid, hparent, Option.some.injEq] at hline
        rw [← hline]
        exact List.count_eq_one_of_mem (h.nodup hparent) hchild
      next hid =>
        rw [List.count_eq_zero]
        intro hmem
        exact hid (h.one_parent hlines.1 hparent hmem hchild)
    simp only [List.flatMap_cons, List.map_cons, List.count_append, List.count_cons, ih hlines.2, hcount,
      beq_iff_eq]
    omega

theorem mem_roots_iff {node : Node} :
    node ∈ t.roots ↔ node ∈ t.nodes ∧ ∀ other ∈ t.nodes, node.id ∉ other.children := by
  simp [roots]

theorem Grown.exists_get? (h : t.Grown) {node : Node} (hnode : node ∈ t.nodes) :
    t.get? node.id = some node := by
  obtain ⟨id, hid⟩ := List.getElem?_of_mem hnode
  rwa [h.id_eq hid]

theorem Grown.id_lt (h : t.Grown) {node : Node} (hnode : node ∈ t.nodes) : node.id < t.size :=
  (List.getElem?_eq_some_iff.mp (h.exists_get? hnode)).1

theorem Grown.count_roots (h : t.Grown) {node : Node} (hnode : node ∈ t.roots) :
    (t.roots.map (·.id)).count node.id = 1 := by
  have hnodup : (t.roots.map (·.id)).Nodup := by
    refine List.Nodup.sublist (List.filter_sublist.map _) ?_
    rw [h.ids]
    exact List.nodup_range
  exact List.count_eq_one_of_mem hnodup (List.mem_map_of_mem hnode)

theorem Grown.count_walk (h : t.Grown) (hwalks : t.Walks 0 (t.roots.map (·.id)) lines) {id : Nat}
    (hid : id < t.size) : (lines.map (·.2.id)).count id = 1 := by
  have hlines := hwalks.get? h
  have hstart : ∀ id ∈ t.roots.map (·.id), id < t.size := by
    rw [List.forall_mem_map]
    exact fun node hnode => h.id_lt (mem_roots_iff.mp hnode).1
  -- The induction is on the id: a node is a root, or it has one parent, which is older.
  induction id using Nat.strongRecOn with
  | ind id ih =>
    rw [hwalks.count h hstart]
    by_cases hchild : ∃ parent node, t.get? parent = some node ∧ id ∈ node.children
    · obtain ⟨parent, node, hparent, hchild⟩ := hchild
      have hlt := (h.child_lt hparent id hchild).1
      have hroots : (t.roots.map (·.id)).count id = 0 := by
        rw [List.count_eq_zero, List.mem_map]
        rintro ⟨root, hroot, rfl⟩
        exact (mem_roots_iff.mp hroot).2 node (List.mem_of_getElem? hparent) hchild
      rw [hroots, h.count_flatMap hparent hchild hlines, ih parent hlt (by omega)]
    · obtain ⟨node, hnode⟩ : ∃ node, t.get? id = some node := ⟨_, List.getElem?_eq_getElem hid⟩
      have hnone (other : Node) (hother : t.get? other.id = some other) : id ∉ other.children :=
        fun hmem => hchild ⟨other.id, other, hother, hmem⟩
      have hroot : node ∈ t.roots := by
        rw [mem_roots_iff, h.id_eq hnode]
        exact ⟨List.mem_of_getElem? hnode, fun other hother => hnone other (h.exists_get? hother)⟩
      have hbelow : (lines.flatMap (·.2.children)).count id = 0 := by
        rw [List.count_eq_zero, List.mem_flatMap]
        rintro ⟨line, hline, hmem⟩
        exact hnone line.2 (hlines line hline) hmem
      have hcount := h.count_roots hroot
      rw [h.id_eq hnode] at hcount
      rw [hcount, hbelow]

theorem filterMap_get? {nodes : List Node} (h : ∀ node ∈ nodes, t.get? node.id = some node) :
    (nodes.map (·.id)).filterMap t.get? = nodes := by
  induction nodes with
  | nil => rfl
  | cons node nodes ih =>
    rw [List.forall_mem_cons] at h
    rw [List.map_cons, List.filterMap_cons_some h.1, ih h.2]

theorem Walks.filterMap_get? (hwalks : t.Walks level ids lines) (h : t.Grown) :
    (lines.map (·.2.id)).filterMap t.get? = lines.map (·.2) := by
  have hnodes : ∀ node ∈ lines.map (·.2), t.get? node.id = some node :=
    List.forall_mem_map.mpr (hwalks.get? h)
  rw [← Tree.filterMap_get? hnodes, List.map_map]
  rfl

theorem Grown.filterMap_range (h : t.Grown) : (List.range t.size).filterMap t.get? = t.nodes := by
  rw [← h.ids]
  exact filterMap_get? fun node hnode => h.exists_get? hnode

theorem Grown.perm_ids (h : t.Grown) (hwalks : t.Walks 0 (t.roots.map (·.id)) lines) :
    (lines.map (·.2.id)).Perm (List.range t.size) := by
  rw [List.perm_iff_count]
  intro id
  by_cases hid : id < t.size
  · rw [h.count_walk hwalks hid, List.count_eq_one_of_mem List.nodup_range (List.mem_range.mpr hid)]
  · rw [List.count_eq_zero_of_not_mem fun hmem => hid (List.mem_range.mp hmem), List.count_eq_zero,
      List.mem_map]
    rintro ⟨line, hline, rfl⟩
    exact hid (h.id_lt (List.mem_of_getElem? (hwalks.get? h line hline)))

theorem Grown.perm_walk (h : t.Grown) (hwalks : t.Walks 0 (t.roots.map (·.id)) lines) :
    (lines.map (·.2)).Perm t.nodes := by
  have hperm := (h.perm_ids hwalks).filterMap t.get?
  rwa [hwalks.filterMap_get? h, h.filterMap_range] at hperm

/-! ## In the order of the ids -/

theorem Forest.children_eq_nil (h : t.Forest roots) (hgrown : t.Grown) {parent id : Nat} {node child : Node}
    (hparent : t.get? parent = some node) (hid : id ∈ node.children) (hnext : id + 1 ∈ node.children)
    (hchild : t.get? id = some child) : child.children = [] := by
  by_contra hsome
  have hsame : id = parent := hgrown.one_parent hchild hparent (h.succ_mem hchild hsome) hnext
  have := (hgrown.child_lt hparent id hid).1
  omega

theorem Forest.row_le (h : t.Forest roots) {id : Nat} {node : Node} (hnode : t.get? id = some node) :
    id + 1 + node.children.length ≤ t.size := by
  have hid : id < t.size := (List.getElem?_eq_some_iff.mp hnode).1
  cases hlength : node.children.length with
  | zero => exact hid
  | succ length =>
    have hlast : id + 1 + length ∈ node.children := by
      rw [h.row_eq hnode, hlength, List.mem_range'_1]
      omega
    exact (h.child_lt (List.mem_of_getElem? hnode) hlast).2

theorem Forest.walk_row (h : t.Forest roots) (hgrown : t.Grown) (hwalks : t.Walks level ids lines)
    {start length : Nat} (hids : ids = List.range' start length) (hsize : start + length ≤ t.size)
    (hlast : ∀ {id node}, id ∈ ids → id + 1 ∈ ids → t.get? id = some node → node.children = []) :
    lines.map (·.2.id) = List.range' start lines.length := by
  induction hwalks generalizing start length with
  | done => rfl
  | @missing level id ids rest hnone _ _ =>
    have hmem : id ∈ List.range' start length := by simp [← hids]
    rw [List.mem_range'_1] at hmem
    have : t.size ≤ id := List.getElem?_eq_none_iff.mp hnone
    omega
  | @node level id node ids below rest hnode hbelow hrest ihbelow ihrest =>
    cases length with
    | zero => cases hids
    | succ length =>
      rw [List.range'_succ, List.cons.injEq] at hids
      obtain ⟨rfl, rfl⟩ := hids
      cases length with
      | zero =>
        -- The only one to start from: what follows is its row.
        obtain rfl := hrest.unique .done
        rw [List.append_nil, List.map_cons, h.id_eq hnode, List.length_cons, List.range'_succ,
          ihbelow (h.row_eq hnode) (h.row_le hnode) fun hid hnext hchild =>
            h.children_eq_nil hgrown hnode hid hnext hchild]
      | succ length =>
        have hnone : node.children = [] := hlast (by simp) (by simp [List.range'_succ]) hnode
        rw [hnone] at hbelow
        obtain rfl := hbelow.unique .done
        rw [List.nil_append, List.map_cons, h.id_eq hnode, List.length_cons, List.range'_succ,
          ihrest rfl (by omega) fun hid hnext =>
            hlast (List.mem_cons_of_mem _ hid) (List.mem_cons_of_mem _ hnext)]

theorem Forest.roots_ids (h : t.Forest roots) (hle : roots ≤ t.size) :
    t.roots.map (·.id) = List.range roots := by
  have hsplit : List.range t.size = List.range roots ++ List.range' roots (t.size - roots) := by
    have happend : List.range' 0 roots ++ List.range' (0 + roots) (t.size - roots) =
        List.range' 0 (roots + (t.size - roots)) := List.range'_append_1
    rw [Nat.zero_add, Nat.add_sub_cancel' hle] at happend
    rw [List.range_eq_range', List.range_eq_range', happend]
  have hfilter : t.roots.map (·.id) =
      (t.nodes.map (·.id)).filter fun id => !(List.range' roots (t.size - roots)).contains id := by
    rw [List.filter_map, ← h.covered]
    rfl
  have hroots : (List.range roots).filter
      (fun id => !(List.range' roots (t.size - roots)).contains id) = List.range roots := by
    rw [List.filter_eq_self]
    intro id hid
    rw [List.mem_range] at hid
    simp
    omega
  have hothers : (List.range' roots (t.size - roots)).filter
      (fun id => !(List.range' roots (t.size - roots)).contains id) = [] := by
    simp [List.filter_eq_nil_iff]
  rw [hfilter, h.ids, hsplit, List.filter_append, hroots, hothers, List.append_nil]

theorem Forest.outline_nodes (h : t.Forest roots) (hle : roots ≤ t.size) (hgrown : t.Grown) :
    t.outline.map (·.2) = t.nodes := by
  have hwalks := hgrown.walks_outline
  have hroots := h.roots_ids hle
  have hlength : t.outline.length = t.size := by
    have := (hgrown.perm_ids hwalks).length_eq
    rwa [List.length_map, List.length_range] at this
  have hids : t.outline.map (·.2.id) = List.range' 0 t.outline.length := by
    refine h.walk_row hgrown hwalks (hroots.trans List.range_eq_range') (by omega) ?_
    intro id node _ hnext hnode
    rw [hroots, List.mem_range] at hnext
    by_contra hsome
    have := (h.child_lt (List.mem_of_getElem? hnode) (h.succ_mem hnode hsome)).1
    omega
  rw [← hwalks.filterMap_get? hgrown, hids, hlength, ← List.range_eq_range', hgrown.filterMap_range]

/-! ## Lines -/

/-- The line of a node: two blanks for each level, a mark if the node is unique, its id and its entity. -/
def Line (line : String) (entry : Nat × Node) : Prop :=
  line = String.ofList (List.replicate (2 * entry.1) ' ') ++ (if entry.2.unique then "*" else " ") ++ " [" ++
    toString entry.2.id ++ "] " ++ entry.2.entity

theorem join_replicate_blanks (level : Nat) :
    String.join (List.replicate level "  ") = String.ofList (List.replicate (2 * level) ' ') := by
  induction level with
  | zero => rfl
  | succ level ih =>
    rw [List.replicate_succ, String.join_cons, ih, ← String.toList_inj]
    simp [Nat.mul_add, List.replicate_succ]

theorem line_outlineLine (level : Nat) (node : Node) : Line (outlineLine level node) (level, node) := by
  unfold Line outlineLine
  rw [join_replicate_blanks]
  simp only [String.append_assoc]
  rfl

end Tree

namespace Shell

/-- What is printed of an expansion: the lines, a blank one, and how large the expansion is. -/
def printed (e : Expansion) (lines : List String) : String :=
  "\n" ++ String.join (lines.map (· ++ "\n")) ++ "\n" ++ toString e.tree.size ++ " nodes, " ++
    toString e.nonUnique.size ++ " non-unique entities (* = unique)\n\n"

theorem outlineText_eq (e : Expansion) :
    ∃ lines, outlineText e = printed e lines ∧ List.Forall₂ Tree.Line lines e.tree.outline := by
  refine ⟨e.tree.outline.map fun entry => Tree.outlineLine entry.1 entry.2, ?_, ?_⟩
  · unfold outlineText printed
    rw [List.map_map]
    simp only [String.append_assoc]
    rfl
  · rw [List.forall₂_map_left_iff, List.forall₂_same]
    exact fun entry _ => Tree.line_outlineLine entry.1 entry.2

end Shell

namespace Expander

open Expansion (rootCount)
open Tabletop.Tree (Push pushAll pushAll_eq nodesOf)

variable {x : Expander} {mode : Expansion.Mode} {root : Placeholder} {s u : Source} {e : Expansion}

/-! ## Expansions -/

theorem forest_of_expand (h : (x.expand mode root).run s = some (.ok e, u)) :
    e.tree.Forest (rootCount root) ∧ rootCount root ≤ e.tree.size := by
  obtain ⟨q, rfl, hq, -, hlt⟩ :=
    expand_invariant (I := fun p _ => Shaped root p) (shaped_begun root) (fun h hstep => h.step hstep) h
  exact ⟨hq.forest, rootCount_le_size hq.phase hlt⟩

/--
Whatever is pushed under whatever, the walk from the nodes that are no child of another comes by every node once, with a
line for each. In an expansion it comes by them in the order of their ids.
-/
theorem outline_pushAll :
    (∀ calls : List Push, ∃ t, pushAll {} calls = (List.range calls.length, t) ∧ t.size = calls.length ∧
      (∀ id c, calls[id]? = some c → ∃ children,
        t.get? id = some ⟨id, c.placeholder.entity, children, c.unique, c.text, c.placeholder⟩ ∧
        children.Pairwise (· < ·) ∧
        ∀ child, child ∈ children ↔
          id < child ∧ ∃ later, calls[child]? = some later ∧ later.parent = some id) ∧
      (∀ parent other node node' child, t.get? parent = some node → t.get? other = some node' →
        child ∈ node.children → child ∈ node'.children → parent = other ∧ parent < child) ∧
      (∀ lines, t.Walks 0 (t.roots.map (·.id)) lines ↔ lines = t.outline) ∧
      (t.outline.map (·.2)).Perm t.nodes ∧
      ∀ tally, ∃ lines, Shell.outlineText ⟨t, tally⟩ = Shell.printed ⟨t, tally⟩ lines ∧
        List.Forall₂ Tree.Line lines t.outline) ∧
    ∀ (x : Expander) (mode : Expansion.Mode) (root : Placeholder) (s u : Source) (e : Expansion),
      (x.expand mode root).run s = some (.ok e, u) →
        (∃ calls : List Push, pushAll {} calls = (List.range calls.length, e.tree)) ∧
        e.tree.outline.map (·.2) = e.tree.nodes ∧
        e.tree.outline.map (·.2.id) = List.range e.tree.size ∧
        ∃ lines, Shell.outlineText e = Shell.printed e lines ∧
          List.Forall₂ (fun line node => ∃ level, Tree.Line line (level, node)) lines e.tree.nodes := by
  constructor
  · intro calls
    have hgrown := Tree.grown_nodesOf calls
    have hwalks := hgrown.walks_outline
    refine ⟨⟨nodesOf calls⟩, pushAll_eq calls, Tree.size_nodesOf calls, ?_, ?_, ?_, hgrown.perm_walk hwalks,
      fun tally => Shell.outlineText_eq ⟨_, tally⟩⟩
    · intro id c hc
      refine ⟨Tree.childrenOf calls id, ?_, Tree.pairwise_childrenOf id, fun child => Tree.mem_childrenOf⟩
      rw [Tree.get?_nodesOf, hc, Option.map_some]
    · intro parent other node node' child hparent hother hchild hchild'
      exact ⟨hgrown.one_parent hparent hother hchild hchild', (hgrown.child_lt hparent child hchild).1⟩
    · intro lines
      constructor
      · intro h
        exact h.unique hwalks
      · rintro rfl
        exact hwalks
  · intro x mode root s u e h
    obtain ⟨calls, hcalls⟩ := exists_nodesOf h
    obtain ⟨hforest, hle⟩ := forest_of_expand h
    have htree : e.tree = ⟨nodesOf calls⟩ := hcalls
    have hgrown : e.tree.Grown := by
      rw [htree]
      exact Tree.grown_nodesOf calls
    have houtline := hforest.outline_nodes hle hgrown
    obtain ⟨lines, hprinted, hlines⟩ := Shell.outlineText_eq e
    refine ⟨⟨calls, by rw [htree, pushAll_eq]⟩, houtline, ?_, lines, hprinted, ?_⟩
    · rw [← hgrown.ids, ← houtline, List.map_map]
      rfl
    · rw [← houtline, List.forall₂_map_right_iff]
      exact hlines.imp fun _ entry h => ⟨entry.1, h⟩

def rat (parent : Option Nat) : Push := ⟨parent, .ofEntity "rat" 1, false, ""⟩

/-- The third is pushed under a fifth that is not there yet, the last under itself. -/
theorem outline_pushAll_rats :
    (∃ t, pushAll {} [rat none, rat (some 0), rat (some 4), rat (some 0), rat (some 2), rat (some 5)] =
        ([0, 1, 2, 3, 4, 5], t) ∧
      t.nodes.map (·.children) = [[1, 3], [], [4], [], [], []] ∧
      t.outline.map (fun line => (line.1, line.2.id)) = [(0, 0), (1, 1), (1, 3), (0, 2), (1, 4), (0, 5)] ∧
      (t.outline.map (·.2)).Perm t.nodes ∧
      Shell.outlineText ⟨t, {}⟩ =
        "\n  [0] rat\n    [1] rat\n    [3] rat\n  [2] rat\n    [4] rat\n  [5] rat\n" ++
          "\n6 nodes, 0 non-unique entities (* = unique)\n\n") ∧
    ∃ e u,
      (warren.expand ⟨true, true⟩ (.ofEntity "warren" 2)).run (.ofStream (fun _ => 0) 200) =
        some (.ok e, u) ∧
      e.tree.outline.map (fun line => (line.1, line.2.id)) =
        [(0, 0), (0, 1), (1, 2), (1, 3), (2, 4), (3, 5), (3, 6), (4, 7)] ∧
      e.tree.outline.map (·.2) = e.tree.nodes ∧
      ∃ lines, Shell.outlineText e = Shell.printed e lines ∧
        List.Forall₂ (fun line node => ∃ level, Tree.Line line (level, node)) lines e.tree.nodes := by
  constructor
  · obtain ⟨t, ht, -, -, -, -, hperm, -⟩ := outline_pushAll.1
      [rat none, rat (some 0), rat (some 4), rat (some 0), rat (some 2), rat (some 5)]
    obtain rfl : _ = t := congrArg Prod.snd ht
    exact ⟨_, ht, by decide, by decide, hperm, by decide +kernel⟩
  · have hlines :
        (((warren.expand ⟨true, true⟩ (.ofEntity "warren" 2)).run (.ofStream (fun _ => 0) 200)).map
            fun p => p.1.toOption.map fun (e : Expansion) =>
              e.tree.outline.map fun line => (line.1, line.2.id)) =
          some (some [(0, 0), (0, 1), (1, 2), (1, 3), (2, 4), (3, 5), (3, 6), (4, 7)]) := by
      decide +kernel
    obtain ⟨e, u, hrun, hlines⟩ := Roll.exists_run_of_map hlines
    obtain ⟨-, houtline, -, hprinted⟩ := outline_pushAll.2 _ _ _ _ _ _ hrun
    exact ⟨e, u, hrun, hlines, houtline, hprinted⟩

end Expander

end Tabletop
