import Tabletop.Proofs.Expansion.Resolve
import Tabletop.Proofs.Expansion.Run

/-!
# Root nodes

The requests for the root come first, and they stand under no node. All later requests come from tokens,
name an entity, and stand under a node.
-/

namespace Tabletop

open Tabletop.Random

namespace Placeholder

def Named (p : Placeholder) : Prop := p.entity ≠ "" ∧ ∀ c ∈ p.entity.toList, Name.isPlain c = true

theorem named_of_forall₂ {ts : List (List Char)} {ps : List Placeholder}
    (h : List.Forall₂ ReadFrom ts ps) {p : Placeholder} (hp : p ∈ ps) (hbare : p.isBareRoll = false) :
    p.Named := by
  obtain ⟨token, -, hread⟩ := exists_token h hp
  refine ⟨by simpa [isBareRoll] using hbare, fun c hc => ?_⟩
  rw [hread.entity_eq] at hc
  exact isPlain_of_mem_entity hc

end Placeholder

namespace Expansion

/-! ## Groups -/

theorem mem_of_mem_group {l : List Placeholder} {r : Request} (h : r ∈ group l) : r.placeholder ∈ l := by
  have := List.mem_map_of_mem (f := (·.placeholder)) h
  rwa [group_map] at this

theorem length_group (l : List Placeholder) : (group l).length = l.length := by
  rw [← List.length_map (f := (·.placeholder)), group_map]

theorem opens_group {l : List Placeholder} {i : Nat} {r : Request} (h : (group l)[i]? = some r) :
    r.opens = (i == 0) := by
  cases l with
  | nil => simp [group] at h
  | cons p rest =>
    cases i with
    | zero =>
      simp only [group, List.getElem?_cons_zero, Option.some.injEq] at h
      rw [← h]
      rfl
    | succ i =>
      simp only [group, List.getElem?_cons_succ, List.getElem?_map, Option.map_eq_some_iff] at h
      obtain ⟨q, -, rfl⟩ := h
      rfl

/-- Requests that do not belong to a group before them. -/
def StartsGroup (requests : List Request) : Prop := ∀ r ∈ requests.head?, r.opens = true

theorem startsGroup_group (l : List Placeholder) : StartsGroup (group l) := by
  intro r hr
  rw [Option.mem_def, List.head?_eq_getElem?] at hr
  rw [opens_group hr]
  rfl

theorem StartsGroup.append {a b : List Request} (ha : StartsGroup a) (hb : StartsGroup b) :
    StartsGroup (a ++ b) := by
  cases a with
  | nil => exact hb
  | cons r a => exact ha

theorem startsGroup_flatMap {f : Placeholder → List Request} (l : List Placeholder)
    (h : ∀ p, StartsGroup (f p)) : StartsGroup (l.flatMap f) := by
  induction l with
  | nil => simp [StartsGroup]
  | cons p l ih => exact (h p).append ih

theorem startsGroup_requestsOf (mode : Mode) (nested : List Placeholder) :
    StartsGroup (requestsOf mode nested) := by
  unfold requestsOf
  split
  · simp [StartsGroup]
  · split
    · exact startsGroup_flatMap _ fun p => startsGroup_group _
    · exact startsGroup_group _

theorem mem_of_mem_requestsOf {mode : Mode} {nested : List Placeholder} {r : Request}
    (h : r ∈ requestsOf mode nested) : r.placeholder ∈ nested ∧ r.placeholder.isBareRoll = false := by
  have hmem : r.placeholder ∈ nested.filter fun p => !p.isBareRoll := by
    unfold requestsOf at h
    split at h
    · simp at h
    · split at h
      · obtain ⟨p, hp, hr⟩ := List.mem_flatMap.mp h
        rwa [List.eq_of_mem_replicate (mem_of_mem_group hr)]
      · exact mem_of_mem_group h
  simpa using List.mem_filter.mp hmem

def rootCount (root : Placeholder) : Nat := (rootRequests root).length

theorem rootCount_eq (root : Placeholder) :
    rootCount root = if root.isBareRoll then 0 else min root.quantity capacity := by
  unfold rootCount rootRequests
  split
  · rfl
  · rw [length_group, repeated, List.length_replicate]

/-! ## Phases -/

/--
What an expansion has waiting: first what is left of the requests for the root, which stand under no
node, then the groups that came up since.
-/
structure Phase (root : Placeholder) (p : Progress) : Prop where
  waiting_eq : ∃ later, p.waiting = (rootRequests root).drop p.done.tree.size ++ later ∧
    (∀ r ∈ later, r.placeholder.Named) ∧
    (p.done.tree.size < rootCount root → StartsGroup later) ∧ (p.done.tree.size = 0 → later = [])
  parent_eq_none : p.done.tree.size < rootCount root → p.parent = none
  under_node : rootCount root ≤ p.done.tree.size → p.parent.isSome = true ∨ StartsGroup p.waiting

theorem phase_begun (root : Placeholder) : Phase root (begun root) := by
  have hsize : (begun root).done.tree.size = 0 := rfl
  refine ⟨⟨[], ?_, by simp, by simp [StartsGroup], fun _ => rfl⟩, fun _ => rfl, fun hcount => .inr ?_⟩
  · rw [hsize, List.drop_zero, List.append_nil]
    rfl
  · rw [hsize, Nat.le_zero, rootCount] at hcount
    rw [begun, List.eq_nil_of_length_eq_zero hcount]
    simp [StartsGroup]

end Expansion

namespace Expander

open Expansion (Mode Progress Request Phase rootRequests rootCount)

variable {x : Expander} {mode : Mode} {root : Placeholder} {p q : Progress} {s t : Source}

def parentOf (p : Progress) (r : Request) : Option Nat :=
  if r.opens then p.done.tree.lastId? else p.parent

theorem drop_rootRequests (h : Phase root p) {r : Request} {waiting : List Request}
    (hw : p.waiting = r :: waiting) (hsize : p.done.tree.size < rootCount root) :
    (rootRequests root).drop p.done.tree.size =
        r :: (rootRequests root).drop (p.done.tree.size + 1) ∧
      r.opens = (p.done.tree.size == 0) := by
  obtain ⟨later, hlater, -⟩ := h.waiting_eq
  have hdrop := List.drop_eq_getElem_cons hsize
  rw [hw, hdrop, List.cons_append, List.cons.injEq] at hlater
  refine ⟨by rw [hdrop, hlater.1], ?_⟩
  have hget : (rootRequests root)[p.done.tree.size]? = some r := by
    rw [List.getElem?_eq_getElem hsize, hlater.1]
  unfold rootRequests at hget
  split at hget
  · simp at hget
  · exact Expansion.opens_group hget

theorem isNone_parentOf (h : Phase root p) {r : Request} {waiting : List Request}
    (hw : p.waiting = r :: waiting) :
    (parentOf p r).isNone = decide (p.done.tree.size < rootCount root) := by
  by_cases hsize : p.done.tree.size < rootCount root
  · rw [decide_eq_true hsize, parentOf, (drop_rootRequests h hw hsize).2]
    by_cases hzero : p.done.tree.size = 0
    · simp [hzero, Tree.lastId?_eq]
    · simp [hzero, h.parent_eq_none hsize]
  · rw [decide_eq_false hsize, parentOf]
    have hle : rootCount root ≤ p.done.tree.size := by omega
    obtain ⟨later, hlater, -, -, hempty⟩ := h.waiting_eq
    have hnonempty : p.done.tree.size ≠ 0 := by
      intro hzero
      rw [List.drop_eq_nil_of_le hle, hempty hzero, hw] at hlater
      cases hlater
    split
    next => simp [Tree.lastId?_eq, hnonempty]
    next hopens =>
      rcases h.under_node hle with hparent | hstarts
      · simpa using hparent
      · exact absurd (hstarts r (by rw [hw]; rfl)) hopens

theorem phase_step (h : Phase root p) (hstep : x.Step mode p s q t) : Phase root q := by
  have hsize := hstep.size
  obtain ⟨r, waiting, node, hw, hnode, rfl⟩ := hstep
  obtain ⟨-, -, u, -, hread⟩ := resolve_ok hnode
  have hreads := Placeholder.parse_ok (read_ok_iff.mp hread)
  have hnone := isNone_parentOf h hw
  have hparent : (x.added mode r node { p with waiting }).parent = parentOf p r := rfl
  have hwaiting : (x.added mode r node { p with waiting }).waiting =
      waiting ++ Expansion.requestsOf mode node.nested := rfl
  have hnamed : ∀ r' ∈ Expansion.requestsOf mode node.nested, r'.placeholder.Named := by
    intro r' hr'
    obtain ⟨hmem, hbare⟩ := Expansion.mem_of_mem_requestsOf hr'
    exact Placeholder.named_of_forall₂ hreads hmem hbare
  obtain ⟨later, hlater, hall, hstarts, -⟩ := h.waiting_eq
  rw [hw] at hlater
  have hrequests := Expansion.startsGroup_requestsOf mode node.nested
  rcases Nat.lt_or_ge p.done.tree.size (rootCount root) with hlt | hge
  · -- The request was one for the root.
    rw [(drop_rootRequests h hw hlt).1, List.cons_append, List.cons.injEq] at hlater
    refine ⟨⟨later ++ Expansion.requestsOf mode node.nested, ?_, ?_, ?_, by omega⟩, ?_, fun hge => .inr ?_⟩
    · rw [hwaiting, hsize, hlater.2, List.append_assoc]
    · exact List.forall_mem_append.mpr ⟨hall, hnamed⟩
    · exact fun _ => (hstarts hlt).append hrequests
    · intro hlt'
      rw [hsize] at hlt'
      rw [hparent, ← Option.isNone_iff_eq_none, hnone, decide_eq_true hlt]
    · rw [hsize] at hge
      rw [hwaiting, hlater.2, List.drop_eq_nil_of_le hge, List.nil_append]
      exact (hstarts hlt).append hrequests
  · -- The request came from a token.
    rw [List.drop_eq_nil_of_le hge, List.nil_append] at hlater
    rw [← hlater, List.forall_mem_cons] at hall
    refine ⟨⟨waiting ++ Expansion.requestsOf mode node.nested, ?_, ?_, by omega, by omega⟩, by omega,
      fun _ => .inl ?_⟩
    · rw [hwaiting, hsize, List.drop_eq_nil_of_le (Nat.le_succ_of_le hge), List.nil_append]
    · exact List.forall_mem_append.mpr ⟨hall.2, hnamed⟩
    · rw [hparent, ← Option.not_isNone, hnone, decide_eq_false (by omega)]
      rfl

end Expander

end Tabletop
