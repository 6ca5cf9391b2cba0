import Mathlib.Data.List.Nodup
import Tabletop.Proofs.Expansion.Run

/-!
# Trees that grow

A tree grows by one push after another, under any parents, also such as there are not or not yet. What its
nodes are in the end can be told from the pushes alone.
-/

namespace Tabletop

open Tabletop.Random

namespace Tree

/-! ## Pushes -/

/-- What a new node is to be. -/
structure Push where
  parent : Option Nat
  placeholder : Placeholder
  unique : Bool
  text : String
deriving Repr, DecidableEq

/-- The id of a new node, and the tree with it. -/
def pushed (t : Tree) (c : Push) : Nat × Tree := (t.size, t.push c.parent c.placeholder c.unique c.text)

/-- The ids of new nodes, one pushed after another, and the tree with all of them. -/
def pushAll : Tree → List Push → List Nat × Tree
  | t, [] => ([], t)
  | t, c :: calls =>
    let (id, t) := t.pushed c
    let (ids, t) := t.pushAll calls
    (id :: ids, t)

/-- The nodes that were pushed under a parent when it was there. -/
def childrenOf (calls : List Push) (parent : Nat) : List Nat :=
  (List.range calls.length).filter fun child =>
    parent < child && calls[child]?.bind (·.parent) == some parent

/-- The nodes that pushes give, each told from all of them. -/
def nodesOf (calls : List Push) : List Node :=
  calls.mapIdx fun id c => ⟨id, c.placeholder.entity, childrenOf calls id, c.unique, c.text, c.placeholder⟩

variable {calls : List Push}

theorem mem_childrenOf {parent child : Nat} :
    child ∈ childrenOf calls parent ↔
      parent < child ∧ ∃ c, calls[child]? = some c ∧ c.parent = some parent := by
  simp only [childrenOf, List.mem_filter, List.mem_range, Bool.and_eq_true, decide_eq_true_eq, beq_iff_eq,
    Option.bind_eq_some_iff]
  constructor
  · rintro ⟨-, h⟩
    exact h
  · rintro ⟨hlt, c, hc, hparent⟩
    exact ⟨(List.getElem?_eq_some_iff.mp hc).1, hlt, c, hc, hparent⟩

theorem pairwise_childrenOf (parent : Nat) : (childrenOf calls parent).Pairwise (· < ·) :=
  List.pairwise_lt_range.filter _

theorem childrenOf_concat (c : Push) {parent : Nat} (hparent : parent < calls.length) :
    childrenOf (calls ++ [c]) parent =
      childrenOf calls parent ++ if c.parent = some parent then [calls.length] else [] := by
  have hbefore : ((List.range calls.length).filter fun child =>
      parent < child && (calls ++ [c])[child]?.bind (·.parent) == some parent) = childrenOf calls parent := by
    refine List.filter_congr fun child hchild => ?_
    rw [List.getElem?_append_left (List.mem_range.mp hchild)]
  rw [childrenOf, List.length_append, List.length_singleton, List.range_succ, List.filter_append, hbefore,
    List.filter_singleton]
  simp [hparent]

theorem childrenOf_eq_nil {parent : Nat} (hparent : calls.length ≤ parent + 1) : childrenOf calls parent = [] := by
  rw [List.eq_nil_iff_forall_not_mem]
  intro child hchild
  obtain ⟨hlt, c, hc, -⟩ := mem_childrenOf.mp hchild
  have := (List.getElem?_eq_some_iff.mp hc).1
  omega

theorem size_nodesOf (calls : List Push) : (⟨nodesOf calls⟩ : Tree).size = calls.length := by
  simp [size, nodesOf]

theorem get?_nodesOf (calls : List Push) (id : Nat) :
    (⟨nodesOf calls⟩ : Tree).get? id = calls[id]?.map fun c =>
      ⟨id, c.placeholder.entity, childrenOf calls id, c.unique, c.text, c.placeholder⟩ := by
  simp [get?, nodesOf]

theorem linked_nodesOf (c : Push) :
    linked (nodesOf calls) c.parent calls.length = calls.mapIdx fun id old =>
      ⟨id, old.placeholder.entity, childrenOf (calls ++ [c]) id, old.unique, old.text, old.placeholder⟩ := by
  refine List.ext_getElem? fun id => ?_
  rw [List.getElem?_mapIdx]
  cases hold : calls[id]? with
  | none =>
    have hle : calls.length ≤ id := List.getElem?_eq_none_iff.mp hold
    cases c.parent <;> simp [linked, nodesOf, hle]
  | some old =>
    rw [childrenOf_concat c (List.getElem?_eq_some_iff.mp hold).1]
    cases c.parent with
    | none => simp [linked, nodesOf, hold]
    | some parent =>
      by_cases hparent : parent = id <;> simp [linked, nodesOf, hold, hparent]

theorem pushed_nodesOf (c : Push) :
    (⟨nodesOf calls⟩ : Tree).pushed c = (calls.length, ⟨nodesOf (calls ++ [c])⟩) := by
  have hnew : childrenOf (calls ++ [c]) calls.length = [] := childrenOf_eq_nil (by simp)
  rw [pushed, push, size_nodesOf, linked_nodesOf, nodesOf, List.mapIdx_concat, hnew]

theorem pushAll_nodesOf (calls more : List Push) :
    pushAll ⟨nodesOf calls⟩ more =
      (List.range' calls.length more.length, ⟨nodesOf (calls ++ more)⟩) := by
  induction more generalizing calls with
  | nil => simp [pushAll]
  | cons c more ih =>
    rw [pushAll, pushed_nodesOf]
    dsimp only
    rw [ih, List.length_append, List.append_assoc]
    rfl

theorem pushAll_eq (calls : List Push) :
    pushAll {} calls = (List.range calls.length, ⟨nodesOf calls⟩) := by
  have h := pushAll_nodesOf [] calls
  rwa [List.length_nil, ← List.range_eq_range', List.nil_append] at h

/-! ## Grown trees -/

/-- Ids are positions, and each child is newer than its parent and has no other. -/
structure Grown (t : Tree) : Prop where
  ids : t.nodes.map (·.id) = List.range t.size
  child_lt : ∀ {id node}, t.get? id = some node → ∀ child ∈ node.children, id < child ∧ child < t.size
  nodup : ∀ {id node}, t.get? id = some node → node.children.Nodup
  one_parent : ∀ {a b node node' child}, t.get? a = some node → t.get? b = some node' →
    child ∈ node.children → child ∈ node'.children → a = b

theorem Grown.id_eq {t : Tree} (h : t.Grown) {id : Nat} {node : Node} (hnode : t.get? id = some node) :
    node.id = id := id_eq_of_ids h.ids hnode

theorem grown_nodesOf (calls : List Push) : (⟨nodesOf calls⟩ : Tree).Grown := by
  have hnode {id : Nat} {node : Node} (h : (⟨nodesOf calls⟩ : Tree).get? id = some node) :
      node.children = childrenOf calls id := by
    rw [get?_nodesOf] at h
    obtain ⟨c, -, rfl⟩ := Option.map_eq_some_iff.mp h
    rfl
  constructor
  · apply List.ext_getElem <;> simp [nodesOf, size]
  · intro id node h child hchild
    rw [hnode h, mem_childrenOf] at hchild
    obtain ⟨hlt, c, hc, -⟩ := hchild
    rw [size_nodesOf]
    exact ⟨hlt, (List.getElem?_eq_some_iff.mp hc).1⟩
  · intro id node h
    rw [hnode h]
    exact (pairwise_childrenOf id).imp Nat.ne_of_lt
  · intro a b node node' child ha hb hchild hchild'
    rw [hnode ha, mem_childrenOf] at hchild
    rw [hnode hb, mem_childrenOf] at hchild'
    obtain ⟨-, c, hc, hparent⟩ := hchild
    obtain ⟨-, c', hc', hparent'⟩ := hchild'
    rw [hc, Option.some.injEq] at hc'
    rw [← hc', hparent, Option.some.injEq] at hparent'
    exact hparent'

end Tree

/-! ## Expansions -/

namespace Expander

open Tabletop.Tree (Push nodesOf)

variable {x : Expander} {mode : Expansion.Mode} {s t : Source}

theorem Step.nodesOf {p q : Expansion.Progress} (hstep : x.Step mode p s q t)
    (h : ∃ calls, p.done.tree = ⟨nodesOf calls⟩) : ∃ calls, q.done.tree = ⟨nodesOf calls⟩ := by
  obtain ⟨calls, hcalls⟩ := h
  obtain ⟨r, waiting, node, -, -, rfl⟩ := hstep
  obtain ⟨c, hc⟩ : ∃ c : Push,
      (x.added mode r node { p with waiting }).done.tree = (p.done.tree.pushed c).2 :=
    ⟨⟨_, _, _, _⟩, rfl⟩
  refine ⟨calls ++ [c], ?_⟩
  rw [hc, hcalls, Tree.pushed_nodesOf]

theorem exists_nodesOf {root : Placeholder} {e : Expansion}
    (h : (x.expand mode root).run s = some (.ok e, t)) : ∃ calls, e.tree = ⟨nodesOf calls⟩ := by
  obtain ⟨q, rfl, hq, -, -⟩ :=
    expand_invariant (I := fun p _ => ∃ calls, p.done.tree = ⟨nodesOf calls⟩) ⟨[], rfl⟩
      (fun hp hstep => hstep.nodesOf hp) h
  exact hq

end Expander

end Tabletop
