import Tabletop.Expansion.Node
import Tabletop.Proofs.Placeholder.Reading

/-!
# What resolving settles

A resolved node has the entity of its name, and it has an outcome just if that entity has a table and
tables are rolled. Whether the node could come out differently is settled by the entity alone.
-/

namespace Tabletop

open Tabletop.Random

namespace Expander

variable {x : Expander} {p : Placeholder} {rolls : Bool} {node : Resolved} {s s' : Source}

/-- The text in which the placeholders of an entity are read, with the outcome of its table if rolled. -/
def readText (x : Expander) (e : Entity) (outcome : Option String) : String :=
  x.renderWith (x.readingOptions outcome.isSome) e outcome

theorem run_find {name : String} :
    (x.find name).run s = some ((x.lookup name).mapError .lookup, s) := rfl

theorem find_eq_pure {name : String} {e : Entity} (h : x.lookup name = .ok e) : x.find name = pure e := by
  rw [find, h]
  rfl

theorem find_ok {name : String} {e : Entity} (h : (x.find name).run s = some (.ok e, s')) :
    x.lookup name = .ok e ∧ s = s' := by
  rw [run_find] at h
  cases hlookup : x.lookup name with
  | error _ => simp [hlookup] at h
  | ok found => simpa [hlookup] using h

theorem rollTable_eq_pure {e : Entity} (given : Option Int) (h : (rolls && e.hasTable) = false) :
    rollTable e given rolls = pure none := by
  unfold rollTable
  split
  next t htable =>
    have hrolls : rolls = false := by simpa [Entity.hasTable, htable] using h
    rw [hrolls]
    rfl
  next => rfl

theorem rollTable_ok {e : Entity} {given : Option Int} {outcome : Option String}
    (h : (rollTable e given rolls).run s = some (.ok outcome, s')) :
    outcome.isSome = (rolls && e.hasTable) ∧ (outcome = none → s = s') := by
  unfold rollTable at h
  cases htable : e.table with
  | none =>
    rw [htable] at h
    simp only [Roll.run_pure, Option.some.injEq, Prod.mk.injEq, Except.ok.injEq] at h
    obtain ⟨rfl, rfl⟩ := h
    simp [Entity.hasTable, htable]
  | some t =>
    rw [htable] at h
    cases rolls with
    | false =>
      simp only [Bool.false_eq_true, if_false, Roll.run_pure, Option.some.injEq, Prod.mk.injEq,
        Except.ok.injEq] at h
      obtain ⟨rfl, rfl⟩ := h
      simp
    | true =>
      obtain ⟨text, u, -, h⟩ := Roll.run_bind_ok_iff.mp h
      simp only [Roll.run_pure, Option.some.injEq, Prod.mk.injEq, Except.ok.injEq] at h
      obtain ⟨rfl, rfl⟩ := h
      simp [Entity.hasTable, htable]

theorem read_ok_iff {text : String} {ps : List Placeholder} :
    (read text).run s = some (.ok ps, s') ↔ (Placeholder.parse text).run s = some (.ok ps, s') :=
  Roll.run_adapt_ok_iff

theorem hasFault_read (text : String) :
    (read text).HasFault
      (((Placeholder.tokens text.toList).findSome? Placeholder.tokenFault?).map .dice) :=
  Roll.hasFault_adapt (Placeholder.hasFault_parse text)

theorem read_ok_of_ok {text : String} {ps : List Placeholder}
    (h : (read text).run s = some (.ok ps, s')) : (read text).Yields fun _ => True := by
  have hfault := hasFault_read text
  have hnone := hfault s (.ok ps) s' h
  rw [hnone] at hfault
  exact hfault.yields fun _ _ _ _ => trivial

theorem yields_read {text : String}
    (h : (Placeholder.tokens text.toList).findSome? Placeholder.tokenFault? = none) :
    (read text).Yields (List.Forall₂ Placeholder.ReadFrom (Placeholder.keptTokens text.toList)) := by
  have hfault := hasFault_read text
  rw [h] at hfault
  exact hfault.yields fun _ _ _ hread => Placeholder.parse_ok (read_ok_iff.mp hread)

theorem resolve_ok (h : (x.resolve p rolls).run s = some (.ok node, s')) :
    x.lookup p.entity = .ok node.entity ∧
      node.outcome.isSome = (rolls && node.entity.hasTable) ∧
      ∃ t, (node.outcome = none → s = t) ∧
        (read (x.readText node.entity node.outcome)).run t = some (.ok node.nested, s') := by
  obtain ⟨e, t, hfind, h⟩ := Roll.run_bind_ok_iff.mp h
  obtain ⟨outcome, u, htable, h⟩ := Roll.run_bind_ok_iff.mp h
  obtain ⟨nested, v, hread, h⟩ := Roll.run_bind_ok_iff.mp h
  rw [Roll.run_pure] at h
  cases h
  obtain ⟨hlookup, rfl⟩ := find_ok hfind
  obtain ⟨houtcome, hsame⟩ := rollTable_ok htable
  refine ⟨hlookup, houtcome, u, hsame, ?_⟩
  rwa [readText, houtcome]

/-! ## Nodes that could come out differently -/

/-- Expanding an entity involves a roll: of its table, or of a quantity in its text. -/
def varies (x : Expander) (rolls : Bool) (e : Entity) : Bool :=
  (rolls && e.hasTable) ||
    (Placeholder.keptTokens (x.readText e none).toList).any fun t =>
      (Placeholder.outline t).quantity.isDice

theorem isRandom_of_resolve (h : (x.resolve p rolls).run s = some (.ok node, s')) :
    node.isRandom = x.varies rolls node.entity := by
  obtain ⟨-, houtcome, t, -, hread⟩ := resolve_ok h
  rw [Resolved.isRandom, varies, houtcome]
  cases htable : rolls && node.entity.hasTable with
  | true => rfl
  | false =>
    have hnone : node.outcome = none := by
      rw [htable] at houtcome
      simpa using houtcome
    rw [hnone] at hread
    simp only [Bool.false_or]
    exact (Placeholder.any_isDice (Placeholder.parse_ok (read_ok_iff.mp hread))).symm

end Expander

end Tabletop
