import Tabletop.Proofs.Expansion.Run

/-!
# Group after group

The queue of an expansion can be kept by groups: a group is taken from it as a whole, and all nodes that it adds
stand under the node that was newest at that time. Some groups add no node, so a loop over groups ends because each
turn adds nodes or leaves one group less. It is the loop that resolves one request after another.
-/

namespace Tabletop

open Tabletop.Random

namespace Expansion

/-- Placeholders that stand under one node, each with how often it is asked for. -/
structure Group where
  placeholders : List (Placeholder × Nat)
  /-- The first group of all, which stands under no node. -/
  isRoot : Bool

/-- The groups that the placeholders in a node's text make. Not rolled, they are one group, bare rolls included. -/
def groupsOf (mode : Mode) (nested : List Placeholder) : List Group :=
  if !mode.expands then []
  else if mode.rolls then
    (nested.filter fun p => !p.isBareRoll && 0 < p.quantity).map fun p => ⟨[(p, p.quantity)], false⟩
  else if nested.isEmpty then []
  else [⟨nested.map fun p => (p, 1), false⟩]

/-- An expansion between two groups. -/
structure Round where
  done : Expansion
  queue : List Group

namespace Round

def begun (root : Placeholder) : Round := ⟨{}, [⟨[(root, root.quantity)], true⟩]⟩

def isFull (s : Round) : Bool := capacity ≤ s.done.tree.size

/-- Nothing has happened, or there are more nodes and what they ask for waits behind the rest. -/
def Grows (s t : Round) : Prop :=
  t = s ∨ s.done.tree.size < t.done.tree.size ∧
    ∃ asked : List Group, t.queue = s.queue ++ asked ∧ ∀ g ∈ asked, g.isRoot = false

variable {s t u : Round}

theorem Grows.trans (h : s.Grows t) (h' : t.Grows u) : s.Grows u := by
  obtain rfl | ⟨hsize, asked, hqueue, hasked⟩ := h
  · exact h'
  obtain rfl | ⟨hsize', asked', hqueue', hasked'⟩ := h'
  · exact .inr ⟨hsize, asked, hqueue, hasked⟩
  refine .inr ⟨Nat.lt_trans hsize hsize', asked ++ asked', ?_, List.forall_mem_append.mpr ⟨hasked, hasked'⟩⟩
  rw [hqueue', hqueue, List.append_assoc]

end Round

end Expansion

namespace Expander

open Expansion (Mode Round capacity groupsOf)

variable {x : Expander} {mode : Mode} {isRoot : Bool} {parent : Option Nat} {p : Placeholder}

/-! ## The loop -/

/-- What is done once a placeholder is resolved: its node stands under the parent of its group. -/
def addedUnder (x : Expander) (mode : Mode) (isRoot : Bool) (parent : Option Nat) (p : Placeholder)
    (node : Resolved) (s : Round) : Round :=
  let unique := isRoot || node.isRandom
  let text :=
    if unique then x.displayText node.entity node.outcome (if mode.rolls then node.nested else []) else ""
  let nonUnique := if unique then s.done.nonUnique else x.tallied p node s.done.nonUnique
  ⟨⟨s.done.tree.push parent p unique text, nonUnique⟩, s.queue ++ groupsOf mode node.nested⟩

/-- Resolves a placeholder so many times, unless the tree is full before. What comes behind it adds nothing then. -/
def addTimes (x : Expander) (mode : Mode) (isRoot : Bool) (parent : Option Nat) (p : Placeholder) :
    (times : Nat) → Round → Roll Expansion.Error Round
  | 0, s => pure s
  | times + 1, s =>
    if s.isFull then pure s
    else do
      let node ← x.resolve p mode.rolls
      x.addTimes mode isRoot parent p times (x.addedUnder mode isRoot parent p node s)

/-- Goes through the placeholders of a group. Bare rolls are passed over. -/
def addEach (x : Expander) (mode : Mode) (isRoot : Bool) (parent : Option Nat) :
    List (Placeholder × Nat) → Round → Roll Expansion.Error Round
  | [], s => pure s
  | (p, times) :: rest, s =>
    if p.isBareRoll then x.addEach mode isRoot parent rest s
    else do
      let s ← x.addTimes mode isRoot parent p times s
      x.addEach mode isRoot parent rest s

theorem grows_addedUnder (node : Resolved) (s : Round) :
    s.Grows (x.addedUnder mode isRoot parent p node s) := by
  refine .inr ⟨?_, groupsOf mode node.nested, rfl, ?_⟩
  · simp [addedUnder]
  · intro g hg
    unfold groupsOf at hg
    split at hg
    · cases hg
    split at hg
    · obtain ⟨p, -, rfl⟩ := List.mem_map.mp hg
      rfl
    split at hg
    · cases hg
    · rw [List.mem_singleton.mp hg]

theorem grows_addTimes {times : Nat} {s t : Round} (h : (x.addTimes mode isRoot parent p times s).Reaches t) :
    s.Grows t := by
  induction times generalizing s with
  | zero =>
    obtain ⟨source, source', h⟩ := h
    cases h
    exact .inl rfl
  | succ times ih =>
    obtain ⟨source, source', h⟩ := h
    unfold addTimes at h
    split at h
    · cases h
      exact .inl rfl
    · obtain ⟨node, source₁, -, h⟩ := Roll.run_bind_ok_iff.mp h
      exact (grows_addedUnder node s).trans (ih ⟨source₁, source', h⟩)

theorem grows_addEach {placeholders : List (Placeholder × Nat)} {s t : Round}
    (h : (x.addEach mode isRoot parent placeholders s).Reaches t) : s.Grows t := by
  induction placeholders generalizing s with
  | nil =>
    obtain ⟨source, source', h⟩ := h
    cases h
    exact .inl rfl
  | cons first rest ih =>
    obtain ⟨p, times⟩ := first
    obtain ⟨source, source', h⟩ := h
    unfold addEach at h
    split at h
    · exact ih ⟨source, source', h⟩
    · obtain ⟨u, source₁, hfirst, hrest⟩ := Roll.run_bind_ok_iff.mp h
      exact (grows_addTimes ⟨source, source₁, hfirst⟩).trans (ih ⟨source₁, source', hrest⟩)

/-- Takes group after group, until none waits or the tree is full. -/
def rounds (x : Expander) (mode : Mode) (s : Round) : Roll Expansion.Error Expansion :=
  if _hfull : s.isFull then pure s.done
  else
    match _hqueue : s.queue with
    | [] => pure s.done
    | g :: queue => do
      let t ← (x.addEach mode g.isRoot s.done.tree.lastId? g.placeholders { s with queue }).attached
      x.rounds mode t.1
termination_by (capacity - s.done.tree.size, s.queue.length)
decreasing_by
  have hroom : s.done.tree.size < capacity := by simpa [Round.isFull] using _hfull
  -- A turn that adds no node leaves the room as it is, and one group less.
  obtain hsame | ⟨hsize, -⟩ := grows_addEach t.2
  · rw [hsame]
    refine Prod.Lex.right _ ?_
    simp [_hqueue]
  · refine Prod.Lex.left _ _ ?_
    dsimp only at hsize
    omega

end Expander

/-! ## The first group -/

namespace Expansion

variable {s t : Round}

/-- The first group is alone in the queue, and no other is taken from it before there are nodes. -/
def Round.Ready (s : Round) : Prop :=
  (∃ g, s.queue = [g] ∧ g.isRoot = true ∧ s.done.tree.lastId? = none) ∨
    ∀ g ∈ s.queue, g.isRoot = false ∧ s.done.tree.lastId?.isNone = false

theorem Round.Ready.isRoot_eq {g : Group} {queue : List Group} (hready : s.Ready) (h : s.queue = g :: queue) :
    g.isRoot = s.done.tree.lastId?.isNone := by
  obtain ⟨g', hqueue, hroot, hnone⟩ | hlater := hready
  · rw [h] at hqueue
    cases hqueue
    rw [hroot, hnone]
    rfl
  · obtain ⟨hroot, hsome⟩ := hlater g (h ▸ List.mem_cons_self)
    rw [hroot, hsome]

theorem Round.Ready.turn {g : Group} {queue : List Group} (hready : s.Ready) (h : s.queue = g :: queue)
    (hgrows : Round.Grows { s with queue } t) : t.Ready := by
  have hlater : ∀ g ∈ queue, g.isRoot = false ∧ s.done.tree.lastId?.isNone = false := by
    obtain ⟨g', hqueue, -⟩ | hlater := hready
    · rw [h] at hqueue
      cases hqueue
      exact List.forall_mem_nil _
    · exact fun g hg => hlater g (h ▸ List.mem_cons_of_mem _ hg)
  right
  obtain rfl | ⟨hsize, asked, hqueue, hasked⟩ := hgrows
  · exact hlater
  · have hsome : t.done.tree.lastId?.isNone = false := by
      simp [Tree.lastId?_eq, Nat.ne_zero_of_lt hsize]
    intro g hg
    rw [hqueue] at hg
    obtain hg | hg := List.mem_append.mp hg
    · exact ⟨(hlater g hg).1, hsome⟩
    · exact ⟨hasked g hg, hsome⟩

/-! ## The requests of a group -/

/-- What placeholders of a group ask for, none more often than a tree has room. -/
def spread (placeholders : List (Placeholder × Nat)) : List Placeholder :=
  (placeholders.filter fun asked => !asked.1.isBareRoll).flatMap fun asked =>
    List.replicate (min asked.2 capacity) asked.1

theorem spread_cons (p : Placeholder) (times : Nat) (rest : List (Placeholder × Nat)) :
    spread ((p, times) :: rest) =
      if p.isBareRoll then spread rest else List.replicate (min times capacity) p ++ spread rest := by
  unfold spread
  rw [List.filter_cons]
  cases p.isBareRoll with
  | true => rfl
  | false => rfl

def Group.requests (g : Group) : List Request := group (spread g.placeholders)

def Round.requests (s : Round) : List Request := s.queue.flatMap Group.requests

theorem Round.requests_eq (s : Round) : s.requests = [] ∨ ∃ p waiting, s.requests = ⟨p, true⟩ :: waiting := by
  unfold requests
  induction s.queue with
  | nil => exact .inl rfl
  | cons g rest ih =>
    rw [List.flatMap_cons, Group.requests]
    cases spread g.placeholders with
    | nil => exact ih
    | cons p left => exact .inr ⟨p, _, rfl⟩

theorem requests_groupsOf (mode : Mode) (nested : List Placeholder) :
    (groupsOf mode nested).flatMap Group.requests = requestsOf mode nested := by
  unfold groupsOf requestsOf
  dsimp only
  split
  · rfl
  split
  · induction nested with
    | nil => rfl
    | cons p rest ih =>
      rw [List.filter_cons, List.filter_cons]
      by_cases hbare : p.isBareRoll
      · simpa [hbare] using ih
      · by_cases hnone : p.quantity = 0
        · have hgroup : group (repeated p) = [] := by simp [repeated, hnone, group]
          simpa [hbare, hnone, hgroup] using ih
        · have hgroup : Group.requests ⟨[(p, p.quantity)], false⟩ = group (repeated p) := by
            simp [Group.requests, spread, hbare, repeated]
          simpa [hbare, Nat.pos_of_ne_zero hnone, hgroup] using ih
  · split
    next hnil => simp [List.isEmpty_iff.mp hnil, group]
    next =>
      have honce : min 1 capacity = 1 := rfl
      simp [Group.requests, spread, List.filter_map, List.flatMap_map, Function.comp_def, honce]

theorem requests_begun (root : Placeholder) : (Round.begun root).requests = rootRequests root := by
  unfold rootRequests
  split
  next hbare => simp [Round.requests, Round.begun, Group.requests, spread, hbare, group]
  next hbare => simp [Round.requests, Round.begun, Group.requests, spread, hbare, repeated]

end Expansion

namespace Expander

open Expansion (Mode Group Round Request capacity requestsOf spread spread_cons requests_groupsOf)

variable {x : Expander} {mode : Mode} {isRoot : Bool} {parent : Option Nat} {p : Placeholder} {s : Round}

/-! ## One loop and the other -/

/-- The run that does what is left of a group, standing under `parent`, and then what waits. -/
def runFrom (x : Expander) (mode : Mode) (parent : Option Nat) (left : List Placeholder) (s : Round) :
    Roll Expansion.Error Expansion :=
  x.run mode (capacity - s.done.tree.size) ⟨s.done, parent, left.map (⟨·, false⟩) ++ s.requests⟩

theorem runFrom_full (h : s.isFull = true) (left : List Placeholder) :
    x.runFrom mode parent left s = pure s.done := by
  have hnone : capacity - s.done.tree.size = 0 := by
    have : capacity ≤ s.done.tree.size := by simpa [Round.isFull] using h
    omega
  rw [runFrom, hnone, run]

theorem runFrom_cons (h : s.isFull = false) (left : List Placeholder) :
    x.runFrom mode parent (p :: left) s =
      x.resolve p mode.rolls >>= fun node =>
        x.runFrom mode parent left (x.addedUnder mode parent.isNone parent p node s) := by
  obtain ⟨room, hroom⟩ : ∃ room, capacity - s.done.tree.size = room + 1 := by
    have : s.done.tree.size < capacity := by simpa [Round.isFull] using h
    exact ⟨capacity - s.done.tree.size - 1, by omega⟩
  rw [runFrom, hroom, List.map_cons, List.cons_append, run]
  refine bind_congr fun node => ?_
  have hsize : (x.addedUnder mode parent.isNone parent p node s).done.tree.size = s.done.tree.size + 1 :=
    Tree.push_size _ _ _ _ _
  have hrequests : (x.addedUnder mode parent.isNone parent p node s).requests =
      s.requests ++ requestsOf mode node.nested := by
    rw [Round.requests, addedUnder, List.flatMap_append, requests_groupsOf]
    rfl
  have hroom' : capacity - (s.done.tree.size + 1) = room := by omega
  rw [runFrom, hsize, hroom', hrequests, ← List.append_assoc]
  rfl

theorem runFrom_times (times : Nat) (left : List Placeholder) (s : Round) :
    x.runFrom mode parent (List.replicate times p ++ left) s =
      x.addTimes mode parent.isNone parent p times s >>= fun t => x.runFrom mode parent left t := by
  induction times generalizing s with
  | zero => exact (pure_bind _ _).symm
  | succ times ih =>
    unfold addTimes
    rw [List.replicate_succ, List.cons_append]
    split
    next hfull => rw [runFrom_full hfull, pure_bind, runFrom_full hfull]
    next hroom =>
      rw [runFrom_cons (by simpa using hroom), bind_assoc]
      exact bind_congr fun node => ih _

theorem addTimes_min {times most : Nat} (h : capacity ≤ s.done.tree.size + most) :
    x.addTimes mode isRoot parent p (min times most) s = x.addTimes mode isRoot parent p times s := by
  induction times generalizing s most with
  | zero => rw [Nat.zero_min]
  | succ times ih =>
    cases most with
    | zero =>
      have hfull : s.isFull = true := by simpa [Round.isFull] using h
      rw [Nat.min_zero, addTimes, addTimes, if_pos hfull]
    | succ most =>
      rw [Nat.succ_min_succ, addTimes, addTimes]
      refine ite_congr rfl (fun _ => rfl) fun _ => bind_congr fun node => ih ?_
      rw [addedUnder, Tree.push_size]
      omega

theorem runFrom_each (placeholders : List (Placeholder × Nat)) (s : Round) :
    x.runFrom mode parent (spread placeholders) s =
      x.addEach mode parent.isNone parent placeholders s >>= fun t => x.runFrom mode parent [] t := by
  induction placeholders generalizing s with
  | nil => exact (pure_bind _ _).symm
  | cons first rest ih =>
    obtain ⟨p, times⟩ := first
    rw [spread_cons, addEach]
    split
    · exact ih s
    · rw [runFrom_times, addTimes_min (Nat.le_add_left _ _), bind_assoc]
      exact bind_congr ih

theorem run_opens (room : Nat) (done : Expansion) (parent : Option Nat) (waiting : List Request) :
    x.run mode room ⟨done, parent, ⟨p, true⟩ :: waiting⟩ =
      x.run mode room ⟨done, done.tree.lastId?, ⟨p, false⟩ :: waiting⟩ := by
  cases room with
  | zero => rfl
  | succ room => rfl

theorem run_nil (room : Nat) (done : Expansion) (parent : Option Nat) :
    x.run mode room ⟨done, parent, []⟩ = pure done := by
  cases room with
  | zero => rfl
  | succ room => rfl

theorem runFrom_nil (parent parent' : Option Nat) (s : Round) :
    x.runFrom mode parent [] s = x.runFrom mode parent' [] s := by
  unfold runFrom
  rw [List.map_nil, List.nil_append]
  obtain hnil | ⟨p, waiting, hcons⟩ := s.requests_eq
  · rw [hnil, run_nil, run_nil]
  · rw [hcons, run_opens, run_opens]

theorem runFrom_group (g : Group) (queue : List Group) (h : s.queue = g :: queue) :
    x.runFrom mode parent [] s =
      x.addEach mode s.done.tree.lastId?.isNone s.done.tree.lastId? g.placeholders { s with queue } >>=
        fun t => x.runFrom mode none [] t := by
  have hfirst : x.runFrom mode parent [] s =
      x.runFrom mode s.done.tree.lastId? (spread g.placeholders) { s with queue } := by
    unfold runFrom Round.requests
    rw [h, List.flatMap_cons, Group.requests]
    cases spread g.placeholders with
    | nil => exact runFrom_nil parent s.done.tree.lastId? { s with queue }
    | cons p left => exact run_opens _ _ _ _
  rw [hfirst, runFrom_each]
  exact bind_congr fun t => runFrom_nil _ _ t

theorem runFrom_eq_rounds (hready : s.Ready) : x.runFrom mode none [] s = x.rounds mode s := by
  induction s using rounds.induct x mode with
  | case1 s hfull =>
    rw [rounds, dif_pos hfull]
    exact runFrom_full hfull []
  | case2 s hroom hnil =>
    rw [rounds, dif_neg hroom, runFrom, Round.requests, hnil]
    split
    next => exact run_nil _ _ _
    next hqueue => cases hqueue
  | case3 s hroom g queue hqueue ih =>
    rw [rounds, dif_neg hroom, runFrom_group g queue hqueue, ← hready.isRoot_eq hqueue]
    split
    next hnil => cases hnil.symm.trans hqueue
    next g' queue' hqueue' =>
      cases hqueue.symm.trans hqueue'
      rw [← Roll.attached_bind]
      exact bind_congr fun t => ih t (hready.turn hqueue (grows_addEach t.2))

/-- The loop that resolves one request after another is the loop over groups. -/
theorem expand_eq_rounds (x : Expander) (mode : Mode) (root : Placeholder) :
    x.expand mode root = x.rounds mode (.begun root) := by
  have hready : (Round.begun root).Ready := .inl ⟨_, rfl, rfl, rfl⟩
  rw [← runFrom_eq_rounds hready, runFrom, Expansion.requests_begun]
  rfl

end Expander

end Tabletop
