import Mathlib.Data.List.Induction
import Mathlib.Data.String.Basic
import Tabletop.Compendium.Index
import Tabletop.Proofs.Compendium.History

/-!
# Answers from the indexes

The indexes stay in step with the entries, whatever is added and whatever is refused, so an answer that is
read off them is the one that a search from the front gives.
-/

namespace Tabletop

namespace Compendium

variable {c c' : Compendium} {key name : String} {e : Entity} {place : Nat} {entries log : List (String × Entity)}

namespace Index

variable {ix : Index}

/-! ## One more entry -/

theorem ofEntries_append (entries more : List (String × Entity)) :
    ofEntries (entries ++ more) =
      (more.zipIdx entries.length).foldl (fun ix ((key, e), place) => ix.record place key e) (ofEntries entries) := by
  simp [ofEntries, List.zipIdx_append]

theorem ofEntries_concat (entries : List (String × Entity)) (key : String) (e : Entity) :
    ofEntries (entries ++ [(key, e)]) = (ofEntries entries).record entries.length key e :=
  ofEntries_append entries [(key, e)]

theorem lookup_record (other : String) :
    (ix.record place key e).places.lookup other = if other = key then some place else ix.places.lookup other :=
  Ascending.lookup_insert other

theorem placesOf_record (name : String) :
    (ix.record place key e).placesOf name =
      if name = e.cleanName then ix.placesOf name ++ [place] else ix.placesOf name := by
  unfold placesOf record
  rw [Ascending.lookup_insert]
  split
  next h => rw [h]; rfl
  next => rfl

/-! ## All entries -/

theorem lookup_ofEntries (hnodup : (entries.map Prod.fst).Nodup) :
    (ofEntries entries).places.lookup key = entries.findIdx? (·.1 = key) := by
  induction entries using List.reverseRecOn with
  | nil => rfl
  | append_singleton entries entry ih =>
    obtain ⟨k, e⟩ := entry
    rw [List.map_append, List.nodup_append] at hnodup
    rw [ofEntries_concat, lookup_record, ih hnodup.1, List.findIdx?_append]
    split
    next h =>
      subst h
      have hnone : entries.findIdx? (·.1 = key) = none := by
        rw [List.findIdx?_eq_none_iff]
        intro entry hentry
        simpa using hnodup.2.2 entry.1 (List.mem_map_of_mem hentry) key (by simp)
      simp [hnone]
    next h => simp [Ne.symm h]

theorem placesOf_ofEntries (entries : List (String × Entity)) (name : String) :
    (ofEntries entries).placesOf name =
      (entries.zipIdx.filter fun (entry, _) => entry.2.cleanName = name).map Prod.snd := by
  induction entries using List.reverseRecOn with
  | nil => rfl
  | append_singleton entries entry ih =>
    obtain ⟨k, e⟩ := entry
    rw [ofEntries_concat, placesOf_record, ih, List.zipIdx_append, List.filter_append, List.map_append]
    split
    next h => simp [h]
    next h => simp [Ne.symm h]

theorem sorted_namesakes (entries : List (String × Entity)) : Ascending.Sorted (ofEntries entries).namesakes := by
  induction entries using List.reverseRecOn with
  | nil => exact List.Pairwise.nil
  | append_singleton entries entry ih =>
    rw [ofEntries_concat]
    exact ih.insert

end Index

theorem index_insert (h : c.insert key e = .ok c') :
    c'.index = c.index.record c.size key (prepared e) := by
  obtain ⟨-, rfl⟩ := insert_eq_ok.mp h
  exact Index.ofEntries_concat c.entries key (prepared e)

/-! ## Answers -/

theorem getElem?_findIdx? (entries : List (String × Entity)) (key : String) :
    (entries.findIdx? (·.1 = key)).bind (fun place => (entries.map Prod.snd)[place]?) = entries.lookup key := by
  induction entries with
  | nil => rfl
  | cons entry rest ih =>
    rw [List.findIdx?_cons, Ascending.lookup_cons_eq, ← ih]
    by_cases h : key = entry.1
    · simp [h]
    · rw [if_neg (by simpa using Ne.symm h), Option.bind_map, if_neg h]
      rfl

theorem index_get? (hnodup : (c.entries.map Prod.fst).Nodup) (key : String) :
    c.index.get? c.entities key = c.get? key := by
  unfold Index.get? index
  rw [Index.lookup_ofEntries hnodup]
  exact getElem?_findIdx? c.entries key

theorem isSome_lookup_places (hnodup : (c.entries.map Prod.fst).Nodup) :
    (c.index.places.lookup key).isSome = (c.get? key).isSome := by
  unfold index
  rw [Index.lookup_ofEntries hnodup, List.findIdx?_isSome, Bool.eq_iff_iff, isSome_get?]
  simp

theorem map_placesOf (c : Compendium) (name : String) :
    (c.index.placesOf name).map (c.entities[·]?) = (c.named name).map some := by
  have hentry : ∀ pair ∈ c.entries.zipIdx.filter fun (entry, _) => entry.2.cleanName = name,
      c.entities[pair.2]? = some pair.1.2 := by
    rintro ⟨entry, place⟩ hmem
    have := List.mk_mem_zipIdx_iff_getElem?.mp (List.mem_filter.mp hmem).1
    simp [entities, this]
  have hnamed : c.named name =
      (c.entries.zipIdx.filter fun (entry, _) => entry.2.cleanName = name).map fun (entry, _) => entry.2 := by
    unfold named entities
    conv_lhs => rw [← List.zipIdx_map_fst 0 c.entries]
    rw [List.map_map, List.filter_map]
    rfl
  unfold index
  rw [Index.placesOf_ofEntries, hnamed, List.map_map, List.map_map]
  exact List.map_congr_left hentry

theorem length_placesOf (c : Compendium) (name : String) :
    (c.index.placesOf name).length = c.sharing name := by
  have := congrArg List.length (map_placesOf c name)
  simpa [length_named] using this

theorem index_find (c : Compendium) (query : String) : c.index.find c.entities query = c.find query := by
  have hplaces := map_placesOf c (Name.normalize query)
  have hlength := length_placesOf c (Name.normalize query)
  -- A name has as many places as entities, so both sides are in the same of three cases.
  unfold Index.find
  dsimp only
  split
  next hnone =>
    rw [hnone] at hlength
    exact (find_eq_notFound hlength.symm).symm
  next place hone =>
    rw [hone] at hplaces hlength
    obtain ⟨e, hfound⟩ := List.length_eq_one_iff.mp ((length_named c _).trans hlength.symm)
    rw [hfound] at hplaces
    have hat : c.entities[place]? = some e := by simpa using hplaces
    have hmem : e ∈ c.named (Name.normalize query) := by simp [hfound]
    obtain ⟨he, hname⟩ := List.mem_filter.mp hmem
    rw [hat]
    exact (find_eq_ok he (by simpa using hname) hlength.symm).symm
  next hnone hone =>
    have hmany : 2 ≤ c.sharing (Name.normalize query) := by
      rw [← hlength]
      match hmatch : c.index.placesOf (Name.normalize query) with
      | [] => exact absurd hmatch hnone
      | [place] => exact absurd hmatch (hone place)
      | _ :: _ :: _ => simp
    rw [hlength, find_eq_ambiguous hmany]

theorem mem_namesakes {places : List Nat} (hne : places ≠ []) :
    (name, places) ∈ c.index.namesakes ↔ c.index.placesOf name = places := by
  unfold Index.placesOf index
  rw [← (Index.sorted_namesakes c.entries).lookup_eq_some]
  cases (Index.ofEntries c.entries).namesakes.lookup name with
  | none => simp [hne.symm]
  | some found => simp

theorem mem_index_ambiguousNames {n : Nat} :
    (name, n) ∈ c.index.ambiguousNames ↔ n = c.sharing name ∧ 2 ≤ n := by
  rw [← length_placesOf]
  unfold Index.ambiguousNames
  simp only [List.mem_filter, List.mem_map, decide_eq_true_eq]
  constructor
  · rintro ⟨⟨⟨other, places⟩, hmem, heq⟩, hn⟩
    cases heq
    have hne : places ≠ [] := by
      rintro rfl
      simp at hn
    rw [(mem_namesakes hne).mp hmem]
    exact ⟨rfl, hn⟩
  · rintro ⟨rfl, hn⟩
    have hne : c.index.placesOf name ≠ [] := List.ne_nil_of_length_pos (by omega)
    exact ⟨⟨_, (mem_namesakes hne).mpr rfl, rfl⟩, hn⟩

theorem index_ambiguousNames (c : Compendium) : c.index.ambiguousNames = c.ambiguousNames := by
  have hsorted : Ascending.Sorted c.index.ambiguousNames := by
    unfold Ascending.Sorted Index.ambiguousNames
    apply List.Pairwise.filter
    rw [List.pairwise_map]
    exact Index.sorted_namesakes c.entries
  apply hsorted.eq_of_mem_iff (sorted_ambiguousNames c)
  rintro ⟨name, n⟩
  rw [mem_index_ambiguousNames, mem_ambiguousNames]

/--
The indexes grow with each entry that is added, and every answer that is read off them is the one that a search
from the front gives.
-/
structure Indexed (c : Compendium) : Prop where
  insert_eq : ∀ key e c', c.insert key e = .ok c' → c'.index = c.index.record c.size key (prepared e)
  get?_eq : ∀ key, c.index.get? c.entities key = c.get? key
  find_eq : ∀ query, c.index.find c.entities query = c.find query
  ambiguousNames_eq : c.index.ambiguousNames = c.ambiguousNames

theorem Logged.indexed (h : Logged c log) : c.Indexed :=
  ⟨fun _ _ _ => index_insert, index_get? (h.map_fst ▸ h.nodup), index_find c, index_ambiguousNames c⟩

end Compendium

/-! ## Catalogues -/

namespace Catalogue

open Compendium (DuplicateKey prepared)

variable {c : Compendium} {k k' : Catalogue} {key : String} {e : Entity} {log : List (String × Entity)}

/-- The catalogues that any calls lead to from the empty one, with the entries that were accepted. -/
inductive History : Catalogue → List (String × Entity) → Prop where
  | empty : History {} []
  | insert {k k' : Catalogue} {log : List (String × Entity)} {key : String} {e : Entity} :
      History k log → k.insert key e = .ok k' → History k' (log ++ [(key, e)])
  | refuse {k : Catalogue} {log : List (String × Entity)} {key : String} {e : Entity}
      {duplicate : DuplicateKey} :
      History k log → k.insert key e = .error duplicate → History k log
  | merge {k : Catalogue} {log : List (String × Entity)} (other : Catalogue) :
      History k log → History (k.merge other).1 (log ++ k.compendium.accepted other.entries)

/-- The indexes are those of the entries, whose keys are all different. -/
structure InStep (k : Catalogue) : Prop where
  index_eq : k.index = k.compendium.index
  nodup : (k.compendium.entries.map Prod.fst).Nodup

theorem InStep.insert_eq (h : k.InStep) (key : String) (e : Entity) :
    (k.insert key e).map compendium = k.compendium.insert key e := by
  unfold insert Compendium.insert
  rw [h.index_eq, Compendium.isSome_lookup_places h.nodup]
  split <;> rfl

theorem InStep.insert (h : k.InStep) (hinsert : k.insert key e = .ok k') : k'.InStep := by
  have hmap := h.insert_eq key e
  rw [hinsert] at hmap
  obtain ⟨hnew, hentries⟩ := Compendium.insert_eq_ok.mp hmap.symm
  unfold Catalogue.insert at hinsert
  split at hinsert
  · cases hinsert
  · cases hinsert
    constructor
    · rw [h.index_eq]
      exact (Compendium.Index.ofEntries_concat k.entries key (prepared e)).symm
    · rw [hentries, List.map_append, List.nodup_append_comm]
      exact List.nodup_cons.mpr ⟨hnew, h.nodup⟩

theorem InStep.insertAll (h : k.InStep) (entries : List (String × Entity)) :
    (k.insertAll entries).1.InStep ∧
      (k.insertAll entries).1.compendium = (k.compendium.insertAll entries).1 ∧
      (k.insertAll entries).2 = (k.compendium.insertAll entries).2 := by
  induction entries generalizing k with
  | nil => exact ⟨h, rfl, rfl⟩
  | cons entry rest ih =>
    obtain ⟨key, e⟩ := entry
    unfold Catalogue.insertAll Compendium.insertAll
    rw [← h.insert_eq key e]
    cases hinsert : k.insert key e with
    | error duplicate => exact ⟨h, rfl, rfl⟩
    | ok k' => exact ih (h.insert hinsert)

theorem History.inStep (h : History k log) : k.InStep ∧ Compendium.History k.compendium log := by
  induction h with
  | empty => exact ⟨⟨rfl, List.nodup_nil⟩, .empty⟩
  | @insert k k' log key e _ hinsert ih =>
    obtain ⟨hstep, hlog⟩ := ih
    have hmap := hstep.insert_eq key e
    rw [hinsert] at hmap
    exact ⟨hstep.insert hinsert, hlog.insert hmap.symm⟩
  | refuse _ _ ih => exact ih
  | merge other _ ih =>
    obtain ⟨hstep, hlog⟩ := ih
    obtain ⟨hmerged, hcompendium, -⟩ := hstep.insertAll other.entries
    exact ⟨hmerged, hcompendium ▸ hlog.merge other.compendium⟩

/-- Whatever leads to a compendium leads to a catalogue of its entries. -/
theorem exists_history (h : Compendium.History c log) : ∃ k : Catalogue, k.History log ∧ k.compendium = c := by
  induction h with
  | empty => exact ⟨{}, .empty, rfl⟩
  | @insert c c' log key e _ hinsert ih =>
    obtain ⟨k, hk, rfl⟩ := ih
    rw [← hk.inStep.1.insert_eq key e] at hinsert
    cases hk' : k.insert key e with
    | error =>
      rw [hk'] at hinsert
      cases hinsert
    | ok k' =>
      rw [hk'] at hinsert
      cases hinsert
      exact ⟨k', hk.insert hk', rfl⟩
  | refuse _ _ ih => exact ih
  | merge other _ ih =>
    obtain ⟨k, hk, rfl⟩ := ih
    obtain ⟨-, hcompendium, -⟩ := hk.inStep.1.insertAll other.entries
    exact ⟨_, hk.merge ⟨other.entries, {}⟩, hcompendium⟩

theorem InStep.get?_eq (h : k.InStep) (key : String) : k.get? key = k.compendium.get? key := by
  unfold get?
  rw [h.index_eq]
  exact Compendium.index_get? h.nodup key

theorem InStep.find_eq (h : k.InStep) (query : String) : k.find query = k.compendium.find query := by
  unfold find
  rw [h.index_eq]
  exact Compendium.index_find k.compendium query

theorem InStep.ambiguousNames_eq (h : k.InStep) : k.ambiguousNames = k.compendium.ambiguousNames := by
  unfold ambiguousNames
  rw [h.index_eq]
  exact Compendium.index_ambiguousNames k.compendium

end Catalogue

namespace Compendium

/-! ## What a compendium answers -/

/--
After any calls, accepted or refused, all keys are different and lead to what was accepted under them, and a name is
answered by how many entities have it. The indexes, kept through the same calls, give the same answers.
-/
theorem find_of_history (h : History c log) :
    (c.entries.map Prod.fst).Nodup ∧
      (∀ key e, c.get? key = some e ↔ ∃ written, (key, written) ∈ log ∧ prepared written = e) ∧
      (∀ e ∈ c.entities, e.cleanName = Name.normalize e.name ∧ ∀ t ∈ e.table, t.expand = t) ∧
      (∀ query,
        (∀ e ∈ c.entities, e.cleanName = Name.normalize query → c.sharing (Name.normalize query) = 1 →
          c.find query = .ok e) ∧
        (2 ≤ c.sharing (Name.normalize query) →
          c.find query = .error (.ambiguous (Name.normalize query) (c.sharing (Name.normalize query)))) ∧
        (c.sharing (Name.normalize query) = 0 → c.find query = .error (.notFound (Name.normalize query))) ∧
        c.find (Name.normalize query) = c.find query) ∧
      (∀ name n, (name, n) ∈ c.ambiguousNames ↔ n = c.sharing name ∧ 2 ≤ n) ∧
      (c.ambiguousNames.Pairwise fun a b => a.1 < b.1) ∧
      c.Indexed ∧
      (∃ k : Catalogue, k.History log) ∧
      ∀ k : Catalogue, k.History log →
        k.compendium = c ∧ k.InStep ∧ (∀ key, k.get? key = c.get? key) ∧
          (∀ query, k.find query = c.find query) ∧ k.ambiguousNames = c.ambiguousNames ∧
          (∀ key e, (k.insert key e).map Catalogue.compendium = c.insert key e) ∧
          ∀ other, ((k.merge other).1.compendium, (k.merge other).2) = c.merge other.compendium := by
  have hlogged := h.logged
  refine ⟨hlogged.map_fst ▸ hlogged.nodup, fun _ _ => hlogged.get?_eq_some, fun _ => hlogged.prepared,
    fun query => ⟨fun _ => find_eq_ok, find_eq_ambiguous, find_eq_notFound, find_normalize c query⟩,
    fun _ _ => mem_ambiguousNames, ?_, hlogged.indexed, ?_, fun k hk => ?_⟩
  · exact (sorted_ambiguousNames c).imp compare_lt_iff_lt.mp
  · obtain ⟨k, hk, -⟩ := Catalogue.exists_history h
    exact ⟨k, hk⟩
  · obtain ⟨hstep, hlog⟩ := hk.inStep
    obtain rfl : k.compendium = c := hlog.logged.ext hlogged
    refine ⟨rfl, hstep, hstep.get?_eq, hstep.find_eq, hstep.ambiguousNames_eq, hstep.insert_eq, fun other => ?_⟩
    obtain ⟨-, hmerged, hrefused⟩ := hstep.insertAll other.entries
    exact Prod.ext hmerged hrefused

/-- The merge is refused at its second entry, so of the three only the owl is added. -/
theorem find_of_history_refused :
    ∃ c log, History c log ∧ log.map Prod.fst = ["rat_a", "rat_b", "owl"] ∧
      c.get? "rat_b" = some (prepared { name := "rat " }) ∧
      c.find " RAT" = .error (.ambiguous "rat" 2) ∧
      c.find "owl" = .ok (prepared { name := "Owl" }) ∧
      c.find "Cat" = .error (.notFound "cat") ∧
      (∀ name n, (name, n) ∈ c.ambiguousNames ↔ n = c.sharing name ∧ 2 ≤ n) ∧ c.Indexed ∧
      ∃ k : Catalogue, k.History log ∧ k.find " RAT" = .error (.ambiguous "rat" 2) := by
  have hfirst : ({} : Compendium).insert "rat_a" { name := "Rat" } =
      .ok ⟨[("rat_a", prepared { name := "Rat" })]⟩ := rfl
  have hsecond : (Compendium.mk [("rat_a", prepared { name := "Rat" })]).insert "rat_b" { name := "rat " } =
      .ok ⟨[("rat_a", prepared { name := "Rat" }), ("rat_b", prepared { name := "rat " })]⟩ := rfl
  have hthird : (Compendium.mk [("rat_a", prepared { name := "Rat" }),
      ("rat_b", prepared { name := "rat " })]).insert "rat_a" { name := "Mouse" } = .error ⟨"rat_a"⟩ := rfl
  have hadded := ((History.empty.insert hfirst).insert hsecond).refuse hthird
  have hmerged := hadded.merge ⟨[("owl", { name := "Owl" }), ("rat_b", { name := "Bat" }),
    ("cat", { name := "Cat" })]⟩
  obtain ⟨-, hget, -, hfind, hambiguous, -, hindexed, ⟨k, hk⟩, hcatalogue⟩ := find_of_history hmerged
  obtain ⟨-, -, -, hfound, -⟩ := hcatalogue k hk
  refine ⟨_, _, hmerged, by decide, (hget _ _).mpr ⟨_, by decide, rfl⟩, ?_, ?_, ?_, hambiguous, hindexed, k, hk, ?_⟩
  · exact (hfind " RAT").2.1 (by decide)
  · exact (hfind "owl").1 _ (by decide) (by decide) (by decide)
  · exact (hfind "Cat").2.2.1 (by decide)
  · exact (hfound " RAT").trans ((hfind " RAT").2.1 (by decide))

end Compendium

end Tabletop
