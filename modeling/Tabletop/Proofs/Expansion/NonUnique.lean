import Tabletop.Proofs.Expansion.Evaluate
import Tabletop.Proofs.Expansion.Roots
import Tabletop.Proofs.Expansion.Tally

/-!
# Entities that are not unique

The flag of a node below the roots is settled by its entity alone, so the tally of an expansion counts
all nodes of the entities that it holds.
-/

namespace Tabletop

open Tabletop.Random

/-! ## Marks -/

/-- A node but for its children, which later nodes add to. -/
def Node.bare (node : Node) : Node := { node with children := [] }

namespace Tree

def bareNodes (t : Tree) : List Node := t.nodes.map Node.bare

@[simp]
theorem push_bareNodes (t : Tree) (parent : Option Nat) (p : Placeholder) (unique : Bool) (text : String) :
    (t.push parent p unique text).bareNodes = t.bareNodes ++ [⟨t.size, p.entity, [], unique, text, p⟩] :=
  push_map Node.bare (fun _ _ => rfl) t parent p unique text

@[simp]
theorem length_bareNodes (t : Tree) : t.bareNodes.length = t.size := by simp [bareNodes, size]

end Tree

theorem count_not_unique {nodes : List Node} {name : String}
    (h : ∀ node ∈ nodes, node.entity = name → node.unique = false) :
    ((nodes.filter (!·.unique)).map (·.entity)).count name = (nodes.map (·.entity)).count name := by
  rw [List.count_eq_countP, List.count_eq_countP, List.countP_map, List.countP_map, List.countP_filter]
  refine List.countP_congr fun node hnode => ?_
  have := h node hnode
  simp only [Function.comp_apply, Bool.and_eq_true, beq_iff_eq]
  constructor
  · intro hboth
    exact hboth.1
  · intro hname
    exact ⟨hname, by rw [this hname]; rfl⟩

namespace Expansion

/-- The nodes for the root, as many as it asks for and the tree has room for. -/
def rootNodes (e : Expansion) (root : Placeholder) : List Node :=
  e.tree.nodes.take (min root.quantity capacity)

def laterNodes (e : Expansion) (root : Placeholder) : List Node :=
  e.tree.nodes.drop (min root.quantity capacity)

end Expansion

namespace Expander

open Expansion (Mode Progress Request Phase rootCount capacity)

variable {x : Expander} {mode : Mode} {root : Placeholder} {p q : Progress} {s t : Source} {e : Expansion}

/-! ## Records -/

def plainText (x : Expander) (name : String) : String :=
  match x.lookup name with
  | .ok e => x.displayText e none []
  | .error _ => ""

/-- What the tally of an expansion should record: each node that is not unique. -/
def records (x : Expander) (nodes : List Node) : List (String × String) :=
  (nodes.filter (!·.unique)).map fun node => (node.entity, x.plainText node.entity)

theorem records_fst (nodes : List Node) :
    (x.records nodes).map Prod.fst = (nodes.filter (!·.unique)).map (·.entity) := by
  simp [records, Function.comp_def]

theorem lookup_records {nodes : List Node} {name : String}
    (hname : name ∈ (nodes.filter (!·.unique)).map (·.entity)) :
    (x.records nodes).lookup name = some (x.plainText name) := by
  unfold records
  revert hname
  induction nodes.filter (!·.unique) with
  | nil => simp
  | cons node rest ih =>
    intro hname
    rw [List.map_cons, List.lookup_cons]
    by_cases hnode : name = node.entity
    · rw [beq_iff_eq.mpr hnode, hnode]
    · rw [beq_eq_false_iff_ne.mpr hnode]
      rw [List.map_cons, List.mem_cons] at hname
      exact ih (hname.resolve_left hnode)

theorem tallied_eq {root : Placeholder} {r : Resolved} (hlookup : x.lookup root.entity = .ok r.entity)
    (hnone : r.outcome = none) (tally : Tally) :
    x.tallied root r tally = tally.record root.entity (x.plainText root.entity) := by
  have htext : x.plainText root.entity = x.displayText r.entity none [] := by
    unfold plainText
    rw [hlookup]
  unfold tallied
  dsimp only
  split
  next hsome => exact Tally.record_of_get? hsome _
  next => rw [hnone, htext]

/-! ## Nodes below the roots -/

/-- The entity of a node below the roots was found, and it settles the flag of the node. -/
def Settled (x : Expander) (mode : Mode) (node : Node) : Prop :=
  node.entity ≠ "" ∧ (∀ c ∈ node.entity.toList, Name.isPlain c = true) ∧
    ∃ entity, x.lookup node.entity = .ok entity ∧ node.unique = x.varies mode.rolls entity ∧
      (node.unique = false →
        ∃ t nested t', (read (x.readText entity none)).run t = some (.ok nested, t'))

theorem Settled.unique_eq {a b : Node} (ha : x.Settled mode a) (hb : x.Settled mode b)
    (hname : a.entity = b.entity) : a.unique = b.unique := by
  obtain ⟨-, -, entity, ha, hunique, -⟩ := ha
  obtain ⟨-, -, other, hb, hother, -⟩ := hb
  rw [hname, hb, Except.ok.injEq] at ha
  rw [hunique, hother, ha]

/-- What the nodes and the tally of an expansion have in common at any time. -/
structure Accounted (x : Expander) (mode : Mode) (root : Placeholder) (e : Expansion) : Prop where
  roots_unique : ∀ node ∈ e.tree.bareNodes.take (rootCount root), node.unique = true
  settled : ∀ node ∈ e.tree.bareNodes.drop (rootCount root), x.Settled mode node
  silent : ∀ node ∈ e.tree.bareNodes, node.unique = false → node.text = ""
  nonUnique_eq : e.nonUnique = Tally.ofRecords (x.records e.tree.bareNodes)

theorem accounted_begun (root : Placeholder) : x.Accounted mode root (Expansion.begun root).done := by
  constructor <;> simp [Expansion.begun, Tree.bareNodes, records, Tally.ofRecords]

theorem isNone_or_isRandom (hphase : Phase root p) {r : Request} {waiting : List Request}
    (hw : p.waiting = r :: waiting) {node : Resolved}
    (hnode : (x.resolve r.placeholder mode.rolls).run s = some (.ok node, t)) :
    ((parentOf p r).isNone || node.isRandom) =
      (decide (p.done.tree.size < rootCount root) || x.varies mode.rolls node.entity) := by
  rw [isNone_parentOf hphase hw, isRandom_of_resolve hnode]

theorem read_of_not_varies {r : Placeholder} {node : Resolved}
    (hnode : (x.resolve r mode.rolls).run s = some (.ok node, t))
    (hvaries : x.varies mode.rolls node.entity = false) :
    node.outcome = none ∧
      ∃ u nested t', (read (x.readText node.entity none)).run u = some (.ok nested, t') := by
  obtain ⟨-, houtcome, u, -, hread⟩ := resolve_ok hnode
  rw [varies, Bool.or_eq_false_iff] at hvaries
  rw [hvaries.1] at houtcome
  have hnone : node.outcome = none := by simpa using houtcome
  rw [hnone] at hread
  exact ⟨hnone, u, node.nested, t, hread⟩

theorem named_of_rootCount_le (hphase : Phase root p) {r : Request} {waiting : List Request}
    (hw : p.waiting = r :: waiting) (hge : rootCount root ≤ p.done.tree.size) : r.placeholder.Named := by
  obtain ⟨later, hlater, hnamed, -, -⟩ := hphase.waiting_eq
  rw [List.drop_eq_nil_of_le hge, List.nil_append, hw] at hlater
  exact hnamed r (by rw [← hlater]; exact List.mem_cons_self)

theorem Accounted.add_root (h : x.Accounted mode root e) (hlt : e.tree.size < rootCount root)
    (parent : Option Nat) (r : Placeholder) (text : String) :
    x.Accounted mode root ⟨e.tree.push parent r true text, e.nonUnique⟩ := by
  have hlength : (e.tree.push parent r true text).bareNodes.length ≤ rootCount root := by
    rw [Tree.length_bareNodes, Tree.push_size]
    exact hlt
  have hroots := h.roots_unique
  rw [List.take_of_length_le (by rw [Tree.length_bareNodes]; omega)] at hroots
  refine ⟨?_, ?_, ?_, ?_⟩
  · rw [List.take_of_length_le hlength, Tree.push_bareNodes]
    intro node hnode
    rcases List.mem_append.mp hnode with hnode | hnode
    · exact hroots node hnode
    · rw [List.mem_singleton.mp hnode]
  · rw [List.drop_eq_nil_of_le hlength]
    simp
  · rw [Tree.push_bareNodes]
    intro node hnode hunique
    rcases List.mem_append.mp hnode with hnode | hnode
    · exact h.silent node hnode hunique
    · rw [List.mem_singleton.mp hnode] at hunique
      cases hunique
  · rw [Tree.push_bareNodes, h.nonUnique_eq]
    simp [records]

theorem Accounted.add_later (h : x.Accounted mode root e) (hge : rootCount root ≤ e.tree.size)
    {parent : Option Nat} {r : Placeholder} {unique : Bool} {text : String} {nonUnique : Tally}
    (hsettled : x.Settled mode ⟨e.tree.size, r.entity, [], unique, text, r⟩)
    (hsilent : unique = false → text = "")
    (htally : nonUnique = if unique then e.nonUnique else e.nonUnique.record r.entity (x.plainText r.entity)) :
    x.Accounted mode root ⟨e.tree.push parent r unique text, nonUnique⟩ := by
  have hle : rootCount root ≤ e.tree.bareNodes.length := by rwa [Tree.length_bareNodes]
  refine ⟨?_, ?_, ?_, ?_⟩
  · rw [Tree.push_bareNodes, List.take_append_of_le_length hle]
    exact h.roots_unique
  · rw [Tree.push_bareNodes, List.drop_append_of_le_length hle]
    intro node hnode
    rcases List.mem_append.mp hnode with hnode | hnode
    · exact h.settled node hnode
    · rwa [List.mem_singleton.mp hnode]
  · rw [Tree.push_bareNodes]
    intro node hnode hunique
    rcases List.mem_append.mp hnode with hnode | hnode
    · exact h.silent node hnode hunique
    · rw [List.mem_singleton.mp hnode] at hunique ⊢
      exact hsilent hunique
  · rw [Tree.push_bareNodes, htally, h.nonUnique_eq]
    cases unique with
    | true => simp [records]
    | false => simp [records, ← Tally.ofRecords_concat]

theorem Accounted.step (h : x.Accounted mode root p.done) (hphase : Phase root p)
    (hstep : x.Step mode p s q t) : x.Accounted mode root q.done := by
  obtain ⟨r, waiting, node, hw, hnode, rfl⟩ := hstep
  have hunique := isNone_or_isRandom hphase hw hnode
  obtain ⟨hlookup, -, -⟩ := resolve_ok hnode
  have hadded : (x.added mode r node { p with waiting }).done =
      ⟨p.done.tree.push (parentOf p r) r.placeholder ((parentOf p r).isNone || node.isRandom)
          (if (parentOf p r).isNone || node.isRandom then
            x.displayText node.entity node.outcome (if mode.rolls then node.nested else []) else ""),
        if (parentOf p r).isNone || node.isRandom then p.done.nonUnique
        else x.tallied r.placeholder node p.done.nonUnique⟩ := rfl
  rw [hadded, hunique]
  -- Only the roots come with no parent, so only they are unique whatever their entity is.
  rcases Nat.lt_or_ge p.done.tree.size (rootCount root) with hlt | hge
  · rw [decide_eq_true hlt, Bool.true_or, if_pos rfl, if_pos rfl]
    exact h.add_root hlt _ _ _
  · rw [decide_eq_false (by omega), Bool.false_or]
    obtain ⟨hname, hplain⟩ := named_of_rootCount_le hphase hw hge
    refine h.add_later hge ⟨hname, hplain, node.entity, hlookup, rfl, ?_⟩ ?_ ?_
    · intro hvaries
      exact (read_of_not_varies hnode hvaries).2
    · intro hvaries
      rw [hvaries]
      rfl
    · split
      · rfl
      next hvaries =>
        have hnone := (read_of_not_varies hnode (by simpa using hvaries)).1
        exact tallied_eq hlookup hnone _

/-! ## The tally at the end -/

theorem Accounted.count_records (h : x.Accounted mode root e) {name : String}
    (hname : name ∈ (e.tree.bareNodes.filter (!·.unique)).map (·.entity)) :
    ((e.tree.bareNodes.filter (!·.unique)).map (·.entity)).count name =
      ((e.tree.bareNodes.drop (rootCount root)).map (·.entity)).count name := by
  have hsplit : e.tree.bareNodes.filter (!·.unique) =
      (e.tree.bareNodes.drop (rootCount root)).filter (!·.unique) := by
    have hroots : (e.tree.bareNodes.take (rootCount root)).filter (!·.unique) = [] := by
      rw [List.filter_eq_nil_iff]
      intro node hnode
      rw [h.roots_unique node hnode]
      decide
    rw [← List.take_append_drop (rootCount root) e.tree.bareNodes, List.filter_append, hroots,
      List.nil_append, List.take_append_drop]
  -- One node of the name is not unique, and so are then all below the roots.
  rw [hsplit] at hname ⊢
  obtain ⟨first, hfirst, rfl⟩ := List.mem_map.mp hname
  obtain ⟨hfirst, hflag⟩ := List.mem_filter.mp hfirst
  refine count_not_unique fun node hnode hentity => ?_
  rw [(h.settled node hnode).unique_eq (h.settled first hfirst) hentity]
  simpa using hflag

/-- Asking for a name alone, with nothing expanded and nothing rolled, gives this text and no other. -/
def GivesText (x : Expander) (name text : String) : Prop :=
  (∃ s s', (x.evaluate ⟨false, false⟩ ("\x7b" ++ name ++ "\x7d")).run s = some (.ok text, s')) ∧
    (x.evaluate ⟨false, false⟩ ("\x7b" ++ name ++ "\x7d")).Yields (· = text)

theorem Settled.givesText {node : Node} (h : x.Settled mode node) (hunique : node.unique = false) :
    ∃ entity, x.lookup node.entity = .ok entity ∧
      x.plainText node.entity = x.displayText entity none [] ∧
      x.GivesText node.entity (x.plainText node.entity) := by
  obtain ⟨hname, hplain, entity, hlookup, -, hread⟩ := h
  obtain ⟨u, nested, u', hread⟩ := hread hunique
  have htext : x.plainText node.entity = x.displayText entity none [] := by
    unfold plainText
    rw [hlookup]
  refine ⟨entity, hlookup, htext, ⟨u, u', ?_⟩, ?_⟩
  · rw [run_evaluate_name hplain hname hlookup, hread, htext]
    rfl
  · intro v result v' hrun
    rw [run_evaluate_name hplain hname hlookup] at hrun
    obtain ⟨⟨result, w⟩, hrun, hresult⟩ := Option.map_eq_some_iff.mp hrun
    obtain ⟨nested, rfl, -⟩ := read_ok_of_ok hread v result w hrun
    cases hresult
    exact ⟨_, rfl, htext.symm⟩

theorem Accounted.entry (h : x.Accounted mode root e) {entry : Tally.Entry}
    (hentry : entry ∈ e.nonUnique.entries) :
    entry.count = ((e.tree.bareNodes.drop (rootCount root)).map (·.entity)).count entry.name ∧
      (∃ entity, x.lookup entry.name = .ok entity ∧ entry.text = x.displayText entity none []) ∧
      x.GivesText entry.name entry.text := by
  rw [h.nonUnique_eq, Tally.entries_ofRecords, records_fst] at hentry
  obtain ⟨name, hname, rfl⟩ := List.mem_map.mp hentry
  rw [List.mem_eraseDups] at hname
  have hcount := h.count_records hname
  have htext : (Tally.entryOf (x.records e.tree.bareNodes) name).text = x.plainText name := by
    rw [Tally.entryOf, lookup_records hname]
    rfl
  obtain ⟨node, hnode, rfl⟩ := List.mem_map.mp hname
  obtain ⟨hnode, hflag⟩ := List.mem_filter.mp hnode
  have hunique : node.unique = false := by simpa using hflag
  have hlater : node ∈ e.tree.bareNodes.drop (rootCount root) := by
    rw [← List.take_append_drop (rootCount root) e.tree.bareNodes] at hnode
    rcases List.mem_append.mp hnode with hroot | hlater
    · rw [h.roots_unique node hroot] at hunique
      cases hunique
    · exact hlater
  obtain ⟨entity, hlookup, hplain, hgives⟩ := (h.settled node hlater).givesText hunique
  rw [htext]
  refine ⟨?_, ⟨entity, hlookup, hplain⟩, hgives⟩
  rw [← records_fst] at hcount
  exact hcount

/-! ## The account of an expansion -/

theorem expand_bare (hbare : root.isBareRoll = true) :
    (x.expand mode root).run s = some (.ok {}, s) := by
  have hnone : Expansion.rootRequests root = [] := by rw [Expansion.rootRequests, if_pos hbare]
  rw [expand, hnone]
  rfl

theorem expand_accounted (h : (x.expand mode root).run s = some (.ok e, t)) :
    x.Accounted mode root e := by
  obtain ⟨q, rfl, ⟨-, haccounted⟩, -, -⟩ :=
    expand_invariant (I := fun p _ => Phase root p ∧ x.Accounted mode root p.done)
      ⟨Expansion.phase_begun root, accounted_begun root⟩
      (fun ⟨hphase, hdone⟩ hstep => ⟨phase_step hphase hstep, hdone.step hphase hstep⟩) h
  exact haccounted

theorem bareNodes_split (h : (x.expand mode root).run s = some (.ok e, t)) :
    e.tree.bareNodes.take (rootCount root) = (e.rootNodes root).map Node.bare ∧
      e.tree.bareNodes.drop (rootCount root) = (e.laterNodes root).map Node.bare := by
  rw [Expansion.rootNodes, Expansion.laterNodes, List.map_take, List.map_drop, Expansion.rootCount_eq]
  split
  next hbare =>
    rw [expand_bare hbare] at h
    simp only [Option.some.injEq, Prod.mk.injEq, Except.ok.injEq] at h
    rw [← h.1]
    simp [Tree.bareNodes]
  next => exact ⟨rfl, rfl⟩

/--
All root nodes are unique, and further nodes are or are not by name. The tally has one entry for each name that is not,
with the number of its nodes and the text that asking for the name gives.
-/
theorem expand_nonUnique (hrenderer : x.renderer = .standard)
    (h : (x.expand mode root).run s = some (.ok e, t)) :
    (∀ node ∈ e.rootNodes root, node.unique = true) ∧
      (∀ a ∈ e.laterNodes root, ∀ b ∈ e.laterNodes root, a.entity = b.entity → a.unique = b.unique) ∧
      e.nonUnique.entries.map (·.name) =
        ((e.tree.nodes.filter (!·.unique)).map (·.entity)).eraseDups ∧
      (∀ entry ∈ e.nonUnique.entries,
        entry.count = ((e.laterNodes root).map (·.entity)).count entry.name ∧
        (∃ entity, x.lookup entry.name = .ok entity ∧
          entry.text = Renderer.standard.entity { x.options with skipTable := false } entity) ∧
        x.GivesText entry.name entry.text) ∧
      ∀ node ∈ e.tree.nodes, node.unique = false → node.text = "" := by
  have hdone := expand_accounted h
  obtain ⟨htake, hdrop⟩ := bareNodes_split h
  refine ⟨?_, ?_, ?_, ?_, ?_⟩
  · intro node hnode
    exact hdone.roots_unique node.bare (htake ▸ List.mem_map_of_mem hnode)
  · intro a ha b hb hname
    exact (hdone.settled a.bare (hdrop ▸ List.mem_map_of_mem ha)).unique_eq
      (hdone.settled b.bare (hdrop ▸ List.mem_map_of_mem hb)) hname
  · rw [hdone.nonUnique_eq, Tally.entries_ofRecords, List.map_map, records_fst]
    have hnames : (e.tree.bareNodes.filter (!·.unique)).map (·.entity) =
        (e.tree.nodes.filter (!·.unique)).map (·.entity) := by
      rw [Tree.bareNodes, List.filter_map, List.map_map]
      rfl
    rw [hnames]
    exact List.map_id _
  · intro entry hentry
    obtain ⟨hcount, ⟨entity, hlookup, htext⟩, hgives⟩ := hdone.entry hentry
    refine ⟨?_, ⟨entity, hlookup, ?_⟩, hgives⟩
    · rw [hcount, hdrop, List.map_map]
      rfl
    · rw [htext, displayText_nil hrenderer, renderWith, hrenderer]
      exact String.append_empty
  · intro node hnode hunique
    exact hdone.silent node.bare (List.mem_map_of_mem hnode) hunique

def den : Expander where
  lookup := Compendium.find ⟨[
    ("den", Compendium.prepared { name := "Den", effect := "\x7b3 rat\x7d guard \x7b1d4 coin\x7d." }),
    ("rat", Compendium.prepared { name := "Rat", effect := "Brings \x7bcoin\x7d." }),
    ("coin", Compendium.prepared { name := "Coin", effect := "Worth \x7b1d6\x7d." })]⟩
  renderer := .standard
  options := {}

theorem expand_nonUnique_den :
    ∃ e t,
      (den.expand ⟨true, true⟩ (.ofEntity "den" 2)).run (.ofStream (fun _ => 0) 200) = some (.ok e, t) ∧
      e.nonUnique.entries = [⟨"rat", "#### Rat  \nBrings \x7bcoin\x7d.  \n", 6⟩] ∧
      ((e.laterNodes (.ofEntity "den" 2)).map (·.entity)).count "rat" = 6 ∧
      den.GivesText "rat" "#### Rat  \nBrings \x7bcoin\x7d.  \n" := by
  have hentries :
      (((den.expand ⟨true, true⟩ (.ofEntity "den" 2)).run (.ofStream (fun _ => 0) 200)).map
          fun p => p.1.toOption.map fun (e : Expansion) => e.nonUnique.entries) =
        some (some [⟨"rat", "#### Rat  \nBrings \x7bcoin\x7d.  \n", 6⟩]) := by
    decide +kernel
  obtain ⟨e, t, hrun, hentries⟩ := Roll.exists_run_of_map hentries
  obtain ⟨-, -, -, haccount, -⟩ := expand_nonUnique rfl hrun
  obtain ⟨hcount, -, hgives⟩ := haccount _ (by rw [hentries]; exact List.mem_singleton_self _)
  exact ⟨e, t, hrun, hentries, hcount.symm, hgives⟩

end Expander

end Tabletop
