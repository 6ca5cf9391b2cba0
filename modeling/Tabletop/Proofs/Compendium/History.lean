import Mathlib.Data.List.Nodup
import Tabletop.Proofs.Compendium.Reachable
import Tabletop.Proofs.Table.RoundTrip

/-!
# What was added to a compendium

Entities are added one by one or by merging in another compendium, and either may be refused. A log of what
was accepted says all there is to know of the compendium that comes of it.
-/

namespace Tabletop.Compendium

variable {c c' : Compendium} {log : List (String × Entity)} {key query : String} {e : Entity}

/-! ## Adding -/

theorem isSome_get? : (c.get? key).isSome = true ↔ key ∈ c.entries.map Prod.fst := Ascending.isSome_lookup

theorem insert_eq_ok :
    c.insert key e = .ok c' ↔
      key ∉ c.entries.map Prod.fst ∧ c' = ⟨c.entries ++ [(key, prepared e)]⟩ := by
  unfold insert
  split
  next h => simp [isSome_get?.mp h]
  next h =>
    rw [isSome_get?] at h
    simp [h, eq_comm]

theorem get?_eq_some (hnodup : (c.entries.map Prod.fst).Nodup) :
    c.get? key = some e ↔ (key, e) ∈ c.entries := by
  unfold get?
  rw [List.lookup_eq_some_iff]
  constructor
  · rintro ⟨before, after, hentries, -⟩
    simp [hentries]
  · intro h
    obtain ⟨before, after, hentries⟩ := List.append_of_mem h
    refine ⟨before, after, hentries, fun entry hentry => ?_⟩
    rw [hentries, List.map_append, List.nodup_append] at hnodup
    have := hnodup.2.2 entry.1 (List.mem_map_of_mem hentry) key (by simp)
    simpa using Ne.symm this

/-- The entries that are added of some: those in front of the first whose key is there already. -/
def accepted (c : Compendium) : List (String × Entity) → List (String × Entity)
  | [] => []
  | (key, e) :: rest =>
    match c.insert key e with
    | .ok c => (key, e) :: accepted c rest
    | .error _ => []

/-- The compendiums that any calls lead to from the empty one, with the entries that were accepted. -/
inductive History : Compendium → List (String × Entity) → Prop where
  | empty : History {} []
  | insert {c c' : Compendium} {log : List (String × Entity)} {key : String} {e : Entity} :
      History c log → c.insert key e = .ok c' → History c' (log ++ [(key, e)])
  | refuse {c : Compendium} {log : List (String × Entity)} {key : String} {e : Entity}
      {duplicate : DuplicateKey} :
      History c log → c.insert key e = .error duplicate → History c log
  | merge {c : Compendium} {log : List (String × Entity)} (other : Compendium) :
      History c log → History (c.merge other).1 (log ++ c.accepted other.entries)

/-! ## The log -/

/-- The compendium holds what its log says, each entity prepared, and no key twice. -/
structure Logged (c : Compendium) (log : List (String × Entity)) : Prop where
  entries_eq : c.entries = log.map fun (key, e) => (key, prepared e)
  nodup : (log.map Prod.fst).Nodup

theorem Logged.map_fst (h : Logged c log) : c.entries.map Prod.fst = log.map Prod.fst := by
  simp [h.entries_eq]

theorem Logged.ext (h : Logged c log) (h' : Logged c' log) : c = c' := by
  cases c
  cases c'
  exact congrArg Compendium.mk (h.entries_eq.trans h'.entries_eq.symm)

theorem Logged.insert (h : Logged c log) (hinsert : c.insert key e = .ok c') :
    Logged c' (log ++ [(key, e)]) := by
  obtain ⟨hnew, rfl⟩ := insert_eq_ok.mp hinsert
  rw [h.map_fst] at hnew
  constructor
  · simp [h.entries_eq]
  · rw [List.map_append, List.nodup_append]
    refine ⟨h.nodup, by simp, fun k hk k' hk' => ?_⟩
    rw [List.map_singleton, List.mem_singleton] at hk'
    rintro rfl
    rw [hk'] at hk
    exact hnew hk

theorem Logged.insertAll (h : Logged c log) (entries : List (String × Entity)) :
    Logged (c.insertAll entries).1 (log ++ c.accepted entries) := by
  induction entries generalizing c log with
  | nil => simpa [Compendium.insertAll, accepted] using h
  | cons entry rest ih =>
    obtain ⟨key, e⟩ := entry
    unfold Compendium.insertAll accepted
    cases hinsert : c.insert key e with
    | error duplicate => simpa using h
    | ok c' => simpa using ih (h.insert hinsert)

theorem History.logged (h : History c log) : Logged c log := by
  induction h with
  | empty => exact ⟨rfl, List.nodup_nil⟩
  | insert _ hinsert ih => exact ih.insert hinsert
  | refuse _ _ ih => exact ih
  | merge other _ ih => exact ih.insertAll other.entries

/-! ## What the log says -/

theorem Logged.get?_eq_some (h : Logged c log) :
    c.get? key = some e ↔ ∃ written, (key, written) ∈ log ∧ prepared written = e := by
  rw [Compendium.get?_eq_some (h.map_fst ▸ h.nodup), h.entries_eq, List.mem_map]
  constructor
  · rintro ⟨entry, hentry, heq⟩
    cases heq
    exact ⟨_, hentry, rfl⟩
  · rintro ⟨written, hwritten, rfl⟩
    exact ⟨_, hwritten, rfl⟩

theorem Logged.prepared (h : Logged c log) (he : e ∈ c.entities) :
    e.cleanName = Name.normalize e.name ∧ ∀ t ∈ e.table, t.expand = t := by
  unfold entities at he
  rw [h.entries_eq, List.map_map] at he
  obtain ⟨entry, -, rfl⟩ := List.mem_map.mp he
  refine ⟨rfl, fun t ht => ?_⟩
  obtain ⟨table, -, rfl⟩ := Option.map_eq_some_iff.mp ht
  exact Table.expand_expand table

/-! ## Finding -/

theorem find_eq_ok (he : e ∈ c.entities) (hname : e.cleanName = Name.normalize query)
    (hone : c.sharing (Name.normalize query) = 1) : c.find query = .ok e := by
  rw [← length_named, List.length_eq_one_iff] at hone
  obtain ⟨found, hfound⟩ := hone
  have hmem : e ∈ c.named (Name.normalize query) := List.mem_filter.mpr ⟨he, by simpa using hname⟩
  rw [hfound, List.mem_singleton] at hmem
  unfold find
  simp only [hfound, hmem]

theorem find_eq_ambiguous (hmany : 2 ≤ c.sharing (Name.normalize query)) :
    c.find query = .error (.ambiguous (Name.normalize query) (c.sharing (Name.normalize query))) := by
  unfold find
  dsimp only
  rw [← length_named] at hmany ⊢
  split
  next hnone => simp [hnone] at hmany
  next e hone => simp [hone] at hmany
  next => rfl

theorem find_eq_notFound (hnone : c.sharing (Name.normalize query) = 0) :
    c.find query = .error (.notFound (Name.normalize query)) := by
  rw [← length_named, List.length_eq_zero_iff] at hnone
  unfold find
  simp only [hnone]

theorem find_normalize (c : Compendium) (query : String) : c.find (Name.normalize query) = c.find query := by
  unfold find
  rw [Name.normalize_normalize]

end Tabletop.Compendium
