import Tabletop.Compendium.Loading
import Tabletop.Compendium.Query
import Tabletop.Proofs.Ascending
import Tabletop.Proofs.Name

/-!
# Reachable compendiums

What holds of every compendium that adding entities one by one can lead to. Its entities have normalized
names and expanded tables, and an entity that shares its name with no other is found under it.
-/

namespace Tabletop

namespace Compendium

variable {c c' : Compendium} {e : Entity} {name : String}

/-! ## Reaching a compendium -/

/-- Compendiums that entities can be added up to. -/
inductive Reachable : Compendium → Prop where
  | empty : Reachable {}
  | insert {c c' : Compendium} {key : String} {e : Entity} :
      Reachable c → c.insert key e = .ok c' → Reachable c'

theorem Reachable.insertAll (h : Reachable c) (entries : List (String × Entity)) :
    Reachable (c.insertAll entries).1 := by
  induction entries generalizing c with
  | nil => exact h
  | cons entry rest ih =>
    obtain ⟨key, e⟩ := entry
    unfold Compendium.insertAll
    split
    next hinsert => exact ih (h.insert hinsert)
    next => exact h

theorem Reachable.extend (h : Reachable c) {text : String} {order : Ron.Order}
    (hextend : c.extend text order = .ok c') : Reachable c' := by
  unfold Compendium.extend addWritten insertEach at hextend
  split at hextend
  next entries _ =>
    have hall := h.insertAll (Ascending.ofList entries)
    split at hextend
    next d hd =>
      rw [hd] at hall
      cases hextend
      exact hall
    next => cases hextend
  next => cases hextend

theorem Reachable.extendFile (h : Reachable c) {file : Option String} {order : Ron.Order}
    (hextend : c.extendFile file order = .ok c') : Reachable c' := by
  cases file with
  | none => cases hextend
  | some text => exact h.extend hextend

/-! ## Entities -/

theorem Reachable.prepared (h : Reachable c) (he : e ∈ c.entities) : ∃ written, e = prepared written := by
  induction h with
  | empty => simp [entities] at he
  | insert _ hinsert ih =>
    unfold Compendium.insert at hinsert
    split at hinsert
    · cases hinsert
    · cases hinsert
      simp only [entities, List.map_append, List.map_cons, List.map_nil, List.mem_append,
        List.mem_singleton] at he
      rcases he with he | rfl
      · exact ih he
      · exact ⟨_, rfl⟩

theorem Reachable.normalize_cleanName (h : Reachable c) (he : e ∈ c.entities) :
    Name.normalize e.cleanName = e.cleanName := by
  obtain ⟨written, rfl⟩ := h.prepared he
  exact Name.normalize_normalize written.name

theorem Reachable.coverage_eq (h : Reachable c) (he : e ∈ c.entities) {t : Table} (ht : e.table = some t) :
    t.coverage = Table.coverageOf t.outcomes := by
  obtain ⟨written, rfl⟩ := h.prepared he
  obtain ⟨table, -, rfl⟩ := Option.map_eq_some_iff.mp ht
  rfl

/-! ## Finding -/

theorem mem_of_find (h : c.find name = .ok e) : e ∈ c.entities := by
  unfold find at h
  dsimp only at h
  split at h
  next => cases h
  next found hfound =>
    cases h
    have hmem : e ∈ c.named (Name.normalize name) := by rw [hfound]; exact List.mem_singleton_self e
    exact (List.mem_filter.mp hmem).1
  next => cases h

/-- How many entities have a normalized name. -/
def sharing (c : Compendium) (name : String) : Nat := c.entities.countP (·.cleanName = name)

theorem length_named (c : Compendium) (name : String) : (c.named name).length = c.sharing name :=
  List.countP_eq_length_filter.symm

theorem mem_ambiguousNames {n : Nat} :
    (name, n) ∈ c.ambiguousNames ↔ n = c.sharing name ∧ 2 ≤ n := by
  -- Every entity of a name gives the same count, so it makes no difference which of them is kept.
  have hcounts : (c.entities.map fun e => (e.cleanName, c.sharing e.cleanName)) =
      (c.entities.map Entity.cleanName).map fun name => (name, c.sharing name) := by rw [List.map_map]; rfl
  unfold ambiguousNames
  simp only [List.mem_filter, length_named, decide_eq_true_eq, hcounts, Ascending.mem_ofList_iff]
  constructor
  · rintro ⟨⟨-, rfl⟩, hn⟩
    exact ⟨rfl, hn⟩
  · rintro ⟨rfl, hn⟩
    obtain ⟨e, he, hname⟩ := List.countP_pos_iff.mp (show 0 < c.sharing name by omega)
    exact ⟨⟨List.mem_map.mpr ⟨e, he, of_decide_eq_true hname⟩, rfl⟩, hn⟩

theorem sorted_ambiguousNames (c : Compendium) : Ascending.Sorted c.ambiguousNames :=
  (Ascending.sorted_ofList _).filter _

theorem sharing_le (h : c.ambiguousNames = []) (name : String) : c.sharing name ≤ 1 := by
  apply Nat.le_of_not_lt
  intro hlt
  have := mem_ambiguousNames.mpr ⟨rfl, hlt⟩
  simp [h] at this

theorem Reachable.find_cleanName (hreach : Reachable c) (h : c.ambiguousNames = [])
    (he : e ∈ c.entities) : c.find e.cleanName = .ok e := by
  have hmem : e ∈ c.named e.cleanName := by
    rw [named, List.mem_filter]
    exact ⟨he, by simp⟩
  have hone : c.named e.cleanName = [e] := by
    have hlength := sharing_le h e.cleanName
    rw [← length_named] at hlength
    match hnamed : c.named e.cleanName with
    | [] => simp [hnamed] at hmem
    | [found] =>
      rw [hnamed, List.mem_singleton] at hmem
      rw [hmem]
    | _ :: _ :: _ => simp [hnamed] at hlength
  unfold find
  dsimp only
  rw [hreach.normalize_cleanName he, hone]

end Compendium

end Tabletop
