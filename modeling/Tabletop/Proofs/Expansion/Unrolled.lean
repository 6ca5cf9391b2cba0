import Tabletop.Proofs.Expansion.Completion
import Tabletop.Proofs.Expansion.Evaluate
import Tabletop.Proofs.Expansion.Run
import Tabletop.Proofs.Placeholder.Unrolled

/-!
# Unrolled expansions

Reading a text rolls its dice even where an expansion does not roll. The numbers end up in the
placeholders of the nodes, and nothing else of the expansion depends on them.
-/

namespace Tabletop

open Tabletop.Random Tabletop.Random.Roll

/-! ## Expansions without rolled numbers -/

def Node.unrolled (node : Node) : Node := { node with placeholder := node.placeholder.unrolled }

def Tree.unrolled (t : Tree) : Tree := t.map Node.unrolled

def Resolved.unrolled (r : Resolved) : Resolved :=
  { r with nested := r.nested.map Placeholder.unrolled }

theorem Resolved.isRandom_unrolled (r : Resolved) : r.unrolled.isRandom = r.isRandom := by
  simp only [isRandom, unrolled, List.any_map]
  rfl

theorem Tree.unrolled_push (t : Tree) (parent : Option Nat) (p : Placeholder) (unique : Bool)
    (text : String) :
    (t.push parent p unique text).unrolled = t.unrolled.push parent p.unrolled unique text := by
  apply map_push
  · intro node
    rfl
  · intro node children
    rfl
  · rfl

namespace Expansion

def Request.unrolled (r : Request) : Request := { r with placeholder := r.placeholder.unrolled }

/-- The expansion without the numbers that were rolled for the placeholders of its nodes. -/
def unrolled (e : Expansion) : Expansion := { e with tree := e.tree.unrolled }

def Progress.unrolled (p : Progress) : Progress :=
  { p with done := p.done.unrolled, waiting := p.waiting.map Request.unrolled }

theorem group_unrolled (l : List Placeholder) :
    (group l).map Request.unrolled = group (l.map Placeholder.unrolled) := by
  cases l with
  | nil => rfl
  | cons p rest =>
    simp only [group, List.map_cons, List.map_map]
    rfl

theorem requestsOf_unrolled (expands : Bool) (nested : List Placeholder) :
    (requestsOf ⟨expands, false⟩ nested).map Request.unrolled =
      requestsOf ⟨expands, false⟩ (nested.map Placeholder.unrolled) := by
  unfold requestsOf
  cases expands with
  | false => rfl
  | true =>
    have hfilter : (nested.filter fun p => !p.isBareRoll).map Placeholder.unrolled =
        (nested.map Placeholder.unrolled).filter fun p => !p.isBareRoll := by
      rw [List.filter_map]
      rfl
    -- Each placeholder is asked for once, whatever number it has.
    exact (group_unrolled _).trans (congrArg group hfilter)

theorem begun_unrolled {root root' : Placeholder} (h : root.unrolled = root'.unrolled)
    (hquantity : root.quantity = root'.quantity) : (begun root).unrolled = (begun root').unrolled := by
  have hbare : root.isBareRoll = root'.isBareRoll :=
    show root.unrolled.isBareRoll = root'.unrolled.isBareRoll from congrArg _ h
  have hrequests : (rootRequests root).map Request.unrolled = (rootRequests root').map Request.unrolled := by
    unfold rootRequests
    rw [hbare]
    split
    · rfl
    · rw [group_unrolled, group_unrolled, repeated, repeated, List.map_replicate, List.map_replicate, h,
        hquantity]
  exact congrArg (fun waiting => (⟨{}, none, waiting⟩ : Progress)) hrequests

theorem report_unrolled (e : Expansion) : e.unrolled.report = e.report := by
  have hunique : e.unrolled.tree.uniqueNodes.map (fun node => "\n" ++ node.text) =
      e.tree.uniqueNodes.map fun node => "\n" ++ node.text := by
    simp only [unrolled, Tree.unrolled, Tree.map, Tree.uniqueNodes, List.filter_map, List.map_map]
    rfl
  unfold report
  rw [hunique]
  rfl

end Expansion

namespace Expander

open Expansion (Mode Progress Request)
open Placeholder (keptTokens outline writtenDice)

variable {x : Expander} {expands : Bool}

/-! ## Steps -/

theorem unrolled_added (r : Request) (node : Resolved) (p : Progress) :
    (x.added ⟨expands, false⟩ r node p).unrolled =
      x.added ⟨expands, false⟩ r.unrolled node.unrolled p.unrolled := by
  have hlast : p.done.tree.unrolled.lastId? = p.done.tree.lastId? := Tree.map_lastId? _
  simp only [added, Progress.unrolled, Expansion.unrolled, Tree.unrolled_push, List.map_append,
    Expansion.requestsOf_unrolled, Resolved.isRandom_unrolled, hlast]
  -- Nothing is written over the text of a node, so what was read in it makes no difference to it.
  rfl

theorem added_unrolled_congr {r r' : Request} {node node' : Resolved} {p p' : Progress}
    (hr : r.unrolled = r'.unrolled) (hnode : node.unrolled = node'.unrolled)
    (hp : p.unrolled = p'.unrolled) :
    (x.added ⟨expands, false⟩ r node p).unrolled = (x.added ⟨expands, false⟩ r' node' p').unrolled := by
  rw [unrolled_added, unrolled_added, hr, hnode, hp]

theorem alike_find (name : String) : Alike id (x.find name) (x.find name) :=
  alike_of_run fun _ => run_find

theorem alike_read (text : String) : Alike (List.map Placeholder.unrolled) (read text) (read text) :=
  alike_adapt (Placeholder.alike_parse text)

theorem resolve_unrolled (x : Expander) (p : Placeholder) :
    x.resolve p false = do
      let e ← x.find p.entity
      let nested ← read (x.readText e none)
      return ⟨e, none, nested⟩ := by
  refine bind_congr fun e => ?_
  rw [rollTable_eq_pure p.result (Bool.false_and _), pure_bind]
  rfl

theorem alike_resolve {p q : Placeholder} (h : p.entity = q.entity) :
    Alike Resolved.unrolled (x.resolve p false) (x.resolve q false) := by
  rw [resolve_unrolled, resolve_unrolled, h]
  refine alike_bind (alike_find q.entity) fun e e' _ he => ?_
  rw [show e = e' from he]
  refine alike_bind (alike_read _) fun nested nested' _ hnested => alike_pure ?_
  exact congrArg (Resolved.mk e' none) hnested

/-! ## Runs -/

theorem alike_run (room : Nat) {p q : Progress} (h : p.unrolled = q.unrolled) :
    Alike Expansion.unrolled (x.run ⟨expands, false⟩ room p) (x.run ⟨expands, false⟩ room q) := by
  -- What waits may ask for other numbers in the two runs, but for the same names.
  induction room generalizing p q with
  | zero => exact alike_pure (congrArg (·.done) h)
  | succ room ih =>
    have hwaiting : p.waiting.map Request.unrolled = q.waiting.map Request.unrolled :=
      congrArg (·.waiting) h
    unfold run
    cases hp : p.waiting with
    | nil =>
      rw [hp, List.map_nil, eq_comm, List.map_eq_nil_iff] at hwaiting
      rw [hwaiting]
      exact alike_pure (congrArg (·.done) h)
    | cons r waiting =>
      rw [hp, List.map_cons, eq_comm, List.map_eq_cons_iff] at hwaiting
      obtain ⟨r', waiting', hq, hr, hrest⟩ := hwaiting
      rw [hq]
      have hentity : r.placeholder.entity = r'.placeholder.entity :=
        show r.unrolled.placeholder.entity = r'.unrolled.placeholder.entity by rw [hr]
      refine alike_bind (alike_resolve hentity) fun node node' _ hnode => ih ?_
      refine added_unrolled_congr hr.symm hnode ?_
      simp only [Progress.unrolled, hrest]
      exact congrArg (fun s : Progress => { s with waiting := waiting.map Request.unrolled }) h

theorem alike_expand {root root' : Placeholder} (h : root.unrolled = root'.unrolled)
    (hquantity : root.quantity = root'.quantity) :
    Alike Expansion.unrolled (x.expand ⟨expands, false⟩ root) (x.expand ⟨expands, false⟩ root') :=
  alike_run Expansion.capacity (Expansion.begun_unrolled h hquantity)

/-! ## Evaluations -/

theorem alike_parseSingle (text : String) :
    Alike Placeholder.unrolled (parseSingle text) (parseSingle text) := by
  refine alike_bind (alike_read _) fun found found' _ h => ?_
  have hlength : found.length = found'.length := by
    simpa using congrArg List.length h
  cases found with
  | nil =>
    rw [List.eq_nil_of_length_eq_zero hlength.symm]
    exact alike_throw _
  | cons p rest =>
    obtain ⟨p', rest', rfl, hp, hrest⟩ := List.map_eq_cons_iff.mp h.symm
    cases rest with
    | nil =>
      rw [List.map_eq_nil_iff.mp hrest]
      exact alike_pure hp.symm
    | cons q rest =>
      obtain ⟨q', rest', rfl, -, -⟩ := List.map_eq_cons_iff.mp hrest
      dsimp only
      rw [hlength]
      exact alike_throw _

/-- No token of the text starts with dice. Its numbers are then as they are written. -/
def LeadsWithoutDice (text : String) : Prop :=
  ∀ token ∈ keptTokens text.toList, (outline token).quantity.isDice = false

instance (text : String) : Decidable (LeadsWithoutDice text) :=
  inferInstanceAs (Decidable (∀ token ∈ keptTokens text.toList, (outline token).quantity.isDice = false))

theorem parseSingle_reaches {text : String} (hplain : LeadsWithoutDice (braced text)) {p : Placeholder}
    (h : (parseSingle text).Reaches p) : p.quantityDice.isEmpty = true ∧ p.isBareRoll = false := by
  obtain ⟨s, s', hrun⟩ := h
  obtain ⟨found, t, hread, hrun⟩ := Roll.run_bind_ok_iff.mp hrun
  have hfound : found = [p] := by
    match found with
    | [] => cases hrun
    | [q] =>
      cases hrun
      rfl
    | _ :: _ :: _ => cases hrun
  have hreads := Placeholder.parse_ok (read_ok_iff.mp hread)
  rw [hfound] at hreads
  obtain ⟨token, rest, htoken, -, htokens⟩ := List.forall₂_cons_right_iff.mp hreads
  have hdice : (outline token).quantity.isDice = false := by
    apply hplain
    rw [htokens]
    exact List.mem_cons_self
  have hempty := htoken.quantityDice_isEmpty
  have hkept := htoken.kept
  rw [hdice] at hempty
  rw [Placeholder.Outline.isKept, hdice, ← htoken.entity_eq] at hkept
  exact ⟨by simpa using hempty, by simpa [Placeholder.isBareRoll] using hkept⟩

theorem alike_evaluate {text : String} (hplain : LeadsWithoutDice (braced text)) :
    Alike id (x.evaluate ⟨expands, false⟩ text) (x.evaluate ⟨expands, false⟩ text) := by
  refine alike_bind (alike_parseSingle text) fun p q hp h => ?_
  obtain ⟨hdice, hbare⟩ := parseSingle_reaches hplain hp
  have hentity : p.entity = q.entity := congrArg (·.entity) h
  have hbare' : q.isBareRoll = false := by
    rwa [Placeholder.isBareRoll, ← hentity]
  have hquantity := Placeholder.quantity_eq_of_unrolled h hdice
  rw [hbare, hbare', hentity]
  simp only [Bool.false_eq_true, if_false]
  refine alike_bind (alike_find q.entity) fun e e' _ he => ?_
  rw [show e = e' from he]
  refine alike_bind (alike_read _) fun nested nested' _ hnested => ?_
  have hrefers : Placeholder.refersToEntity nested = Placeholder.refersToEntity nested' := by
    rw [← Placeholder.refersToEntity_unrolled, hnested, Placeholder.refersToEntity_unrolled]
  rw [hrefers]
  split
  · refine alike_bind (alike_expand h hquantity) fun a b _ hab => alike_pure ?_
    rw [← a.report_unrolled, hab, b.report_unrolled]
  · exact alike_pure rfl

/-! ## Completion -/

/-- The dice stand in the text of an entity that is looked up, so an expansion may come to read them. -/
def Writes (x : Expander) (d : Dice) : Prop :=
  ∃ name e, x.lookup name = .ok e ∧ d ∈ writtenDice (x.readText e none)

section Completion

variable {word : Nat → UInt32} (hword : ∀ d, x.Writes d → d.roll.Completes word)
include hword

theorem completes_readText {name : String} {e : Entity} (h : (x.find name).Reaches e) :
    (read (x.readText e none)).Completes word := by
  obtain ⟨s, s', hfind⟩ := h
  have hlookup := (find_ok hfind).1
  exact completes_read fun d hd => hword d ⟨name, e, hlookup, hd⟩

theorem completes_resolve_unrolled (p : Placeholder) : (x.resolve p false).Completes word := by
  refine completes_resolve (fun h => nomatch h) fun e outcome hlookup hrolled d hd => ?_
  obtain ⟨s, s', hrolled⟩ := hrolled
  obtain rfl : outcome = none := by simpa using (rollTable_ok hrolled).1
  exact hword d ⟨p.entity, e, hlookup, hd⟩

theorem completes_expand_unrolled (expands : Bool) (root : Placeholder) :
    (x.expand ⟨expands, false⟩ root).Completes word :=
  completes_run (completes_resolve_unrolled hword) _ _

theorem completes_evaluate_unrolled {text : String} (hplain : LeadsWithoutDice (braced text))
    (htext : ∀ d ∈ writtenDice (braced text), d.roll.Completes word) (expands : Bool) :
    (x.evaluate ⟨expands, false⟩ text).Completes word := by
  refine completes_bind_of_reaches (completes_parseSingle htext) fun p hp => ?_
  rw [(parseSingle_reaches hplain hp).2]
  refine completes_bind_of_reaches (completes_find x _) fun e he => ?_
  refine completes_bind (completes_readText hword he) fun nested => ?_
  split
  · exact completes_bind (completes_expand_unrolled hword expands p) fun _ => completes_pure _
  · exact completes_pure _

end Completion

/--
Where nothing is rolled, two sources make no difference but in the numbers that placeholders carry. Both come to an end
wherever the dice that are read do.
-/
theorem expand_unrolled (x : Expander) (expands : Bool) (root : Placeholder) :
    Alike Expansion.unrolled (x.expand ⟨expands, false⟩ root) (x.expand ⟨expands, false⟩ root) ∧
      (∀ word, (∀ d, x.Writes d → d.roll.Completes word) →
        (x.expand ⟨expands, false⟩ root).Completes word) ∧
      ∀ text, LeadsWithoutDice (braced text) →
        Alike id (x.evaluate ⟨expands, false⟩ text) (x.evaluate ⟨expands, false⟩ text) ∧
        ∀ word, (∀ d, x.Writes d ∨ d ∈ writtenDice (braced text) → d.roll.Completes word) →
          (x.evaluate ⟨expands, false⟩ text).Completes word := by
  refine ⟨alike_expand rfl rfl, fun word hword => completes_expand_unrolled hword expands root, ?_⟩
  intro text hplain
  refine ⟨alike_evaluate hplain, fun word hword => ?_⟩
  apply completes_evaluate_unrolled
  · intro d hd
    exact hword d (.inl hd)
  · exact hplain
  · intro d hd
    exact hword d (.inr hd)

def outpost : Expander where
  lookup
    | "outpost" => .ok (.ofEffect "Outpost" "\x7b1d4 guard\x7d at \x7b2 gate 1d6\x7d.")
    | "guard" => .ok (.ofEffect "Guard" "Yawns.")
    | "gate" => .ok (.ofEffect "Gate" "Locked.")
    | name => .error (.notFound name)
  renderer := .standard
  options := {}

theorem expand_unrolled_outpost :
    ∃ e e' t t',
      (outpost.expand ⟨true, false⟩ (.ofEntity "outpost" 1)).run (.ofStream (fun _ => 0) 20) =
        some (.ok e, t) ∧
      (outpost.expand ⟨true, false⟩ (.ofEntity "outpost" 1)).run (.ofStream (fun _ => 0x90000000) 20) =
        some (.ok e', t') ∧
      e.tree.nodes.map (·.placeholder.quantity) = [1, 1, 2] ∧
      e'.tree.nodes.map (·.placeholder.quantity) = [1, 3, 2] ∧
      e.unrolled = e'.unrolled ∧
      Alike id (outpost.evaluate ⟨true, false⟩ "outpost") (outpost.evaluate ⟨true, false⟩ "outpost") ∧
      (outpost.evaluate ⟨true, false⟩ "outpost").Completes fun _ => 0 := by
  have hzeros :
      (((outpost.expand ⟨true, false⟩ (.ofEntity "outpost" 1)).run (.ofStream (fun _ => 0) 20)).map
          fun p => p.1.toOption.map fun (e : Expansion) => e.tree.nodes.map (·.placeholder.quantity)) =
        some (some [1, 1, 2]) := by
    decide +kernel
  have hothers :
      (((outpost.expand ⟨true, false⟩ (.ofEntity "outpost" 1)).run
        (.ofStream (fun _ => 0x90000000) 20)).map
          fun p => p.1.toOption.map fun (e : Expansion) => e.tree.nodes.map (·.placeholder.quantity)) =
        some (some [1, 3, 2]) := by
    decide +kernel
  have hplain : LeadsWithoutDice (braced "outpost") := by
    decide +kernel
  obtain ⟨e, t, hrun, hquantities⟩ := Roll.exists_run_of_map hzeros
  obtain ⟨e', t', hrun', hquantities'⟩ := Roll.exists_run_of_map hothers
  obtain ⟨halike, -, hevaluate⟩ := expand_unrolled outpost true (.ofEntity "outpost" 1)
  have hsame := halike _ _ _ _ _ _ hrun hrun'
  obtain ⟨htext, hcompletes⟩ := hevaluate "outpost" hplain
  refine ⟨e, e', t, t', hrun, hrun', hquantities, hquantities', Except.ok.inj hsame, htext, ?_⟩
  exact hcompletes _ fun d _ => lively_zero.roll d

end Expander

end Tabletop
