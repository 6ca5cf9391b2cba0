import Tabletop.Proofs.Expansion.Capacity
import Tabletop.Proofs.Expansion.Evaluate

/-!
# Flat texts

The text of an entity that is not expanded is that of the first root node of its expansion. Both come from
one reading of the entity, and what the expansion resolves behind the first node does not fail.
-/

namespace Tabletop

open Tabletop.Random Tabletop.Random.Roll

namespace Expansion

theorem exists_rootRequests {root : Placeholder} (hbare : root.isBareRoll = false)
    (hquantity : 0 < root.quantity) :
    ∃ rest, rootRequests root = ⟨root, true⟩ :: rest ∧ ∀ r ∈ rest, r.placeholder = root := by
  obtain ⟨count, hcount⟩ : ∃ count, min root.quantity capacity = count + 1 :=
    ⟨min root.quantity capacity - 1, by unfold capacity; omega⟩
  refine ⟨(List.replicate count root).map (⟨·, false⟩), ?_, ?_⟩
  · unfold rootRequests repeated
    rw [hbare, hcount, List.replicate_succ]
    rfl
  · simp

end Expansion

namespace Expander

open Expansion (Mode Progress Request)
open Placeholder (refersToEntity)

variable {x : Expander} {p root : Placeholder} {name text : String} {e : Entity} {rolls : Bool}
  {s s' t : Source}

/-! ## One reading -/

theorem yields_found {value : Entity × List Placeholder} (h : (x.found name).Reaches value) :
    (x.found name).Yields fun _ => True := by
  obtain ⟨s, t, h⟩ := h
  obtain ⟨hlookup, hread⟩ := found_ok h
  intro s result s' hrun
  rw [run_found hlookup] at hrun
  obtain ⟨⟨nested, _⟩, hrun, hresult⟩ := Option.map_eq_some_iff.mp hrun
  obtain ⟨nested, rfl, -⟩ := read_ok_of_ok hread _ _ _ hrun
  cases hresult
  exact ⟨_, rfl, trivial⟩

theorem resolve_eq_found (htable : ∀ e, x.lookup p.entity = .ok e → (rolls && e.hasTable) = false) :
    x.resolve p rolls = do
      let (e, nested) ← x.found p.entity
      return ⟨e, none, nested⟩ := by
  unfold resolve found
  simp only [bind_assoc, pure_bind]
  cases hlookup : x.lookup p.entity with
  | error _ =>
    rw [find, hlookup]
    rfl
  | ok e =>
    have hnone := htable e hlookup
    rw [find_eq_pure hlookup, pure_bind, pure_bind, rollTable_eq_pure p.result hnone, pure_bind, hnone]
    rfl

/-! ## The text of the entity -/

theorem refersToEntity_eq_false {nested : List Placeholder} (hrefers : ¬x.Refers e)
    (h : (read (x.readText e none)).run s = some (.ok nested, t)) : refersToEntity nested = false := by
  unfold refersToEntity
  rw [List.any_eq_false]
  intro p hp
  obtain ⟨token, htoken, hread⟩ := Placeholder.exists_token (Placeholder.parse_ok (read_ok_iff.mp h)) hp
  have hempty : (Placeholder.outline token).entity = "" := by
    by_contra hentity
    exact hrefers ⟨token, htoken, hentity⟩
  simp [Placeholder.isBareRoll, hread.entity_eq, hempty]

/-! ## The first node -/

theorem yields_run_roots (hresolve : (x.resolve root rolls).Yields fun _ => True) (room : Nat) {p : Progress}
    (hw : ∀ r ∈ p.waiting, r.placeholder = root)
    (hfirst : (p.done.tree.nodes.map (·.text)).head? = some text) :
    (x.run ⟨false, rolls⟩ room p).Yields fun e => (e.tree.nodes.map (·.text)).head? = some text := by
  induction room generalizing p with
  | zero => exact yields_pure hfirst
  | succ room ih =>
    unfold run
    split
    next => exact yields_pure hfirst
    next r waiting hwaiting =>
      rw [hwaiting, List.forall_mem_cons] at hw
      rw [hw.1]
      refine yields_bind hresolve fun node _ => ih ?_ ?_
      · simpa [added, Expansion.requestsOf] using hw.2
      · rw [added]
        dsimp only
        rw [Tree.push_map (·.text) (fun _ _ => rfl), List.head?_append, hfirst]
        rfl

theorem expand_eq_found (hbare : root.isBareRoll = false) (hquantity : 0 < root.quantity)
    (htable : ∀ e, x.lookup root.entity = .ok e → (rolls && e.hasTable) = false) :
    ∃ rest, (∀ r ∈ rest, r.placeholder = root) ∧
      x.expand ⟨false, rolls⟩ root = (do
        let (e, nested) ← x.found root.entity
        x.run ⟨false, rolls⟩ 99 (x.added ⟨false, rolls⟩ ⟨root, true⟩ ⟨e, none, nested⟩ ⟨{}, none, rest⟩)) := by
  obtain ⟨rest, hrequests, hrest⟩ := Expansion.exists_rootRequests hbare hquantity
  refine ⟨rest, hrest, ?_⟩
  rw [expand, hrequests, Expansion.capacity, run]
  dsimp only
  rw [resolve_eq_found htable, bind_assoc]
  rfl

/-! ## Both texts -/

theorem flatText_eq (mode : Mode) {nested : List Placeholder} :
    x.flatText mode root e nested =
      (if mode.rolls then toString root.quantity ++ " " ++ e.name ++ "  \n" else "") ++
        x.displayText e none (if mode.rolls then nested else []) := by
  unfold flatText
  split
  · rfl
  · exact String.empty_append.symm

/--
Unless its table is to be rolled, the text of a name that is not expanded is that of the first node of its expansion,
headed by the quantity if rolled, and either fails just as the other does.
-/
theorem evaluate_first_text (hroot : (parseSingle text).run s = some (.ok root, s'))
    (hbare : root.isBareRoll = false) (hquantity : 0 < root.quantity)
    (htable : ∀ e, x.lookup root.entity = .ok e → (rolls && e.hasTable) = false) :
    (∀ error t, (x.evaluate ⟨false, rolls⟩ text).run s = some (.error error, t) ↔
      (x.expand ⟨false, rolls⟩ root).run s' = some (.error error, t)) ∧
    (∀ result t, (x.expand ⟨false, rolls⟩ root).run s' = some (.ok result, t) →
      ∃ node e u, result.tree.get? 0 = some node ∧ x.lookup root.entity = .ok e ∧
        (x.evaluate ⟨false, rolls⟩ text).run s =
          some (.ok ((if rolls then toString root.quantity ++ " " ++ e.name ++ "  \n" else "") ++
            node.text), u)) ∧
    (∀ word, Lively word → (x.evaluate ⟨false, rolls⟩ text).Completes word ∧
      (x.expand ⟨false, rolls⟩ root).Completes word) ∧
    ((∀ e, x.lookup root.entity = .ok e → ¬x.Refers e) →
      (x.evaluate ⟨true, rolls⟩ text).run s = (x.evaluate ⟨false, rolls⟩ text).run s) := by
  have hevaluate : (x.evaluate ⟨false, rolls⟩ text).run s =
      (do
        let (e, nested) ← x.found root.entity
        return x.flatText ⟨false, rolls⟩ root e nested : Roll Expansion.Error String).run s' :=
    run_evaluate_found hroot hbare fun _ _ _ _ => rfl
  obtain ⟨rest, hrest, hexpand⟩ := expand_eq_found hbare hquantity htable
  have hfirst {value : Entity × List Placeholder} (h : (x.found root.entity).Reaches value) :
      (x.run ⟨false, rolls⟩ 99
        (x.added ⟨false, rolls⟩ ⟨root, true⟩ ⟨value.1, none, value.2⟩ ⟨{}, none, rest⟩)).Yields
        fun result => (result.tree.nodes.map (·.text)).head? =
          some (x.displayText value.1 none (if rolls then value.2 else [])) := by
    have hresolve : (x.resolve root rolls).Yields fun _ => True := by
      rw [resolve_eq_found htable]
      exact yields_bind (yields_found h) fun _ _ => yields_pure trivial
    refine yields_run_roots hresolve 99 ?_ rfl
    simpa [added, Expansion.requestsOf] using hrest
  refine ⟨fun error t => ?_, fun result t h => ?_, fun word hword => ?_, fun hrefers => ?_⟩
  · rw [hevaluate, hexpand, run_bind_error_iff fun _ _ => yields_pure trivial,
      run_bind_error_iff fun _ h s result s' hrun => ?_]
    obtain ⟨a, ha, -⟩ := hfirst h s result s' hrun
    exact ⟨a, ha, trivial⟩
  · rw [hexpand] at h
    obtain ⟨⟨e, nested⟩, u, hfound, h⟩ := run_bind_ok_iff.mp h
    obtain ⟨_, hresult, htext⟩ := hfirst ⟨_, _, hfound⟩ u _ t h
    cases hresult
    rw [List.head?_map, List.head?_eq_getElem?] at htext
    obtain ⟨node, hnode, htext⟩ := Option.map_eq_some_iff.mp htext
    refine ⟨node, e, u, hnode, (found_ok hfound).1, ?_⟩
    rw [hevaluate, run_bind, hfound, htext, ← flatText_eq ⟨false, rolls⟩]
    rfl
  · exact ⟨completes_evaluate hword x _ text, completes_expand hword x _ root⟩
  · have hflat (e : Entity) (nested : List Placeholder) (t : Source)
        (h : (x.found root.entity).run s' = some (.ok (e, nested), t)) :
        (true && refersToEntity nested) = false := by
      obtain ⟨hlookup, hread⟩ := found_ok h
      exact refersToEntity_eq_false (hrefers e hlookup) hread
    rw [hevaluate, run_evaluate_found hroot hbare hflat]
    rfl

def cellar : Expander where
  lookup
    | "vial" => .ok (.ofEffect "Vial" "\x7b1d6\x7d drops, \x7b1d4\x7d of them dry.")
    | name => .error (.notFound name)
  renderer := .standard
  options := {}

def drops (n : Nat) : UInt32 := UInt32.ofNat (n * 0x30000000)

theorem evaluate_first_text_vials :
    ∃ root s' result t u,
      (parseSingle "3 vial").run (.ofStream drops 200) = some (.ok root, s') ∧
      (cellar.expand ⟨false, true⟩ root).run s' = some (.ok result, t) ∧
      result.tree.nodes.map (·.text) =
        ["#### Vial  \n1 drops, 3 of them dry.  \n", "#### Vial  \n5 drops, 2 of them dry.  \n",
          "#### Vial  \n4 drops, 1 of them dry.  \n"] ∧
      (cellar.evaluate ⟨false, true⟩ "3 vial").run (.ofStream drops 200) =
        some (.ok "3 Vial  \n#### Vial  \n1 drops, 3 of them dry.  \n", u) ∧
      (cellar.evaluate ⟨true, true⟩ "3 vial").run (.ofStream drops 200) =
        some (.ok "3 Vial  \n#### Vial  \n1 drops, 3 of them dry.  \n", u) ∧
      (cellar.expand ⟨false, true⟩ root).Completes surges := by
  have hparse :
      (((parseSingle "3 vial").run (.ofStream drops 200)).map fun p => p.1.toOption.map id) =
        some (some ⟨"\x7b3 vial\x7d", "", "vial", "", 3, none⟩) := by
    decide +kernel
  have htexts :
      (((cellar.expandText ⟨false, true⟩ "3 vial").run (.ofStream drops 200)).map
          fun p => p.1.toOption.map fun (e : Expansion) => e.tree.nodes.map (·.text)) =
        some (some ["#### Vial  \n1 drops, 3 of them dry.  \n",
          "#### Vial  \n5 drops, 2 of them dry.  \n", "#### Vial  \n4 drops, 1 of them dry.  \n"]) := by
    decide +kernel
  obtain ⟨_, s', hroot, rfl⟩ := Roll.exists_run_of_map hparse
  obtain ⟨result, t, hexpand, htexts⟩ := Roll.exists_run_of_map htexts
  rw [expandText, run_bind, hroot] at hexpand
  have htable (e : Entity) (h : cellar.lookup "vial" = .ok e) : (true && e.hasTable) = false := by
    cases h
    rfl
  have hrefers (e : Entity) (h : cellar.lookup "vial" = .ok e) : ¬cellar.Refers e := by
    cases h
    decide +kernel
  obtain ⟨-, htext, hcompletes, hsame⟩ :=
    evaluate_first_text (x := cellar) hroot (by decide) (by decide) htable
  obtain ⟨node, e, u, hnode, hlookup, hevaluate⟩ := htext result t hexpand
  have hfirst : node.text = "#### Vial  \n1 drops, 3 of them dry.  \n" := by
    have hget := congrArg (·[0]?) htexts
    rw [List.getElem?_map, show result.tree.nodes[0]? = some node from hnode] at hget
    exact Option.some.inj hget
  have hheaded : (cellar.evaluate ⟨false, true⟩ "3 vial").run (.ofStream drops 200) =
      some (.ok "3 Vial  \n#### Vial  \n1 drops, 3 of them dry.  \n", u) := by
    cases hlookup
    rw [hevaluate, hfirst]
    rfl
  exact ⟨_, s', result, t, u, hroot, hexpand, htexts, hheaded, (hsame hrefers).trans hheaded,
    (hcompletes _ lively_surges).2⟩

end Expander

end Tabletop
