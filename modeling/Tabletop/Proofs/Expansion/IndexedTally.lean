import Mathlib.Algebra.BigOperators.Group.List.Lemmas
import Mathlib.Algebra.GroupWithZero.Nat
import Mathlib.Data.List.Nodup
import Tabletop.Expansion.IndexedTally
import Tabletop.Proofs.Ascending
import Tabletop.Proofs.Expansion.Tally

/-!
# What an indexed tally holds

The places stay in step with the entries, whatever is recorded, so an indexed tally holds the entries and gives the
answers of one that is searched from the front. Only a count that leaves its bits can stop it.
-/

namespace Tabletop.Tally

variable {t : Indexed} {entries : List Entry} {records : List (String × String)} {name text : String} {place : Nat}

/-! ## One record -/

theorem recordIn_eq_set (h : entries.findIdx? (·.name = name) = some place) (text : String) :
    ∃ e, entries[place]? = some e ∧ e.name = name ∧
      recordIn name text entries = entries.set place { e with count := e.count + 1 } := by
  induction entries generalizing place with
  | nil => simp at h
  | cons e rest ih =>
    rw [List.findIdx?_cons] at h
    unfold recordIn
    by_cases hname : e.name = name
    · obtain rfl : 0 = place := by simpa [hname] using h
      exact ⟨e, rfl, hname, by rw [if_pos hname, List.set_cons_zero]⟩
    · rw [if_neg (by simpa using hname)] at h
      obtain ⟨later, hlater, rfl⟩ := Option.map_eq_some_iff.mp h
      obtain ⟨found, hfound, hbears, hset⟩ := ih hlater
      exact ⟨found, hfound, hbears, by rw [if_neg hname, hset, List.set_cons_succ]⟩

theorem findIdx?_recordIn (h : entries.findIdx? (·.name = name) = some place) (other : String) :
    (recordIn name text entries).findIdx? (·.name = other) = entries.findIdx? (·.name = other) := by
  induction entries generalizing place with
  | nil => simp at h
  | cons e rest ih =>
    rw [List.findIdx?_cons] at h
    unfold recordIn
    by_cases hname : e.name = name
    · rw [if_pos hname, List.findIdx?_cons, List.findIdx?_cons]
    · rw [if_neg (by simpa using hname)] at h
      obtain ⟨later, hlater, -⟩ := Option.map_eq_some_iff.mp h
      rw [if_neg hname, List.findIdx?_cons, List.findIdx?_cons, ih hlater]

namespace Indexed

/-- Each name has the place of the first entry that bears it. -/
def Agrees (t : Indexed) : Prop := ∀ name, t.places.lookup name = t.entries.findIdx? (·.name = name)

theorem Agrees.record? (h : t.Agrees) (hroom : ∀ e ∈ t.entries, e.name = name → e.count + 1 < 0x100000000)
    (text : String) :
    ∃ t', t.record? name text = some t' ∧ t'.entries = recordIn name text t.entries ∧ t'.Agrees := by
  unfold Indexed.record?
  rw [h name]
  cases hfind : t.entries.findIdx? (·.name = name) with
  | none =>
    have hnew : ∀ e ∈ t.entries, e.name ≠ name := by simpa using List.findIdx?_eq_none_iff.mp hfind
    refine ⟨_, rfl, (recordIn_eq_append hnew).symm, fun other => ?_⟩
    dsimp only
    rw [Ascending.lookup_insert, List.findIdx?_append]
    split
    next hsame => simp [hsame, hfind]
    next hother => simp [h other, Ne.symm hother]
  | some place =>
    obtain ⟨e, hplace, hname, hset⟩ := recordIn_eq_set hfind text
    have hcount : countUp? t.entries place = some (recordIn name text t.entries) := by
      unfold countUp?
      rw [hplace, hset]
      exact if_pos (hroom e (List.mem_of_getElem? hplace) hname)
    refine ⟨{ t with entries := recordIn name text t.entries }, ?_, rfl, fun other => ?_⟩
    · simp [hcount]
    · rw [findIdx?_recordIn hfind]
      exact h other

theorem Agrees.get?_eq (h : t.Agrees) (name : String) : t.get? name = t.entries.find? (·.name = name) := by
  unfold Indexed.get?
  rw [h name, List.find?_eq_bind_findIdx?_getElem?]

theorem Agrees.lookup_eq_some_iff (h : t.Agrees) (hnodup : (t.entries.map (·.name)).Nodup) :
    t.places.lookup name = some place ↔ (t.entries[place]?).map (·.name) = some name := by
  rw [h name, List.findIdx?_eq_some_iff_getElem]
  constructor
  · rintro ⟨hlt, hname, -⟩
    simpa [hlt] using hname
  · intro hname
    obtain ⟨e, he, hname⟩ := Option.map_eq_some_iff.mp hname
    obtain ⟨hlt, rfl⟩ := List.getElem?_eq_some_iff.mp he
    refine ⟨hlt, by simpa using hname, fun earlier hearlier hsame => ?_⟩
    rw [List.nodup_iff_getElem?_ne_getElem?] at hnodup
    apply hnodup earlier place hearlier (by simpa using hlt)
    have := hearlier.trans hlt
    simp_all

/-! ## Many records -/

theorem ofRecords?_concat (records : List (String × String)) (name text : String) :
    ofRecords? (records ++ [(name, text)]) = (ofRecords? records).bind (·.record? name text) := by
  unfold ofRecords?
  rw [List.foldlM_append, Option.bind_eq_bind]
  refine Option.bind_congr fun t _ => ?_
  simp

theorem exists_ofRecords? (hfit : ∀ name, (records.map Prod.fst).count name < 0x100000000) :
    ∃ t, ofRecords? records = some t ∧ t.entries = (ofRecords records).entries ∧ t.Agrees := by
  induction records using List.reverseRecOn with
  | nil => exact ⟨{}, rfl, rfl, fun name => rfl⟩
  | append_singleton records record ih =>
    obtain ⟨name, text⟩ := record
    simp only [List.map_append, List.map_singleton, List.count_append] at hfit
    obtain ⟨t, hrun, hentries, hagrees⟩ := ih fun name => by
      have := hfit name
      omega
    have hroom : ∀ e ∈ t.entries, e.name = name → e.count + 1 < 0x100000000 := by
      intro e he hname
      rw [hentries, entries_ofRecords] at he
      obtain ⟨n, -, rfl⟩ := List.mem_map.mp he
      have := hfit name
      simp_all [entryOf]
    obtain ⟨t', hrecord, hentries', hagrees'⟩ := hagrees.record? hroom text
    refine ⟨t', ?_, ?_, hagrees'⟩
    · rw [ofRecords?_concat, hrun, Option.bind_some, hrecord]
    · rw [hentries', ofRecords_concat, record, hentries]

end Indexed

/-! ## What was recorded -/

theorem map_name_entries (records : List (String × String)) :
    (ofRecords records).entries.map (·.name) = (records.map Prod.fst).eraseDups := by
  rw [entries_ofRecords, List.map_map]
  exact List.map_id _

theorem eraseDups_perm_dedup (names : List String) : names.eraseDups.Perm names.dedup := by
  rw [List.perm_ext_iff_of_nodup (nodup_eraseDups names) names.nodup_dedup]
  simp

theorem length_entries (records : List (String × String)) :
    (ofRecords records).entries.length = (records.map Prod.fst).dedup.length := by
  rw [← (eraseDups_perm_dedup _).length_eq, ← map_name_entries, List.length_map]

theorem sum_counts (records : List (String × String)) :
    ((ofRecords records).entries.map (·.count)).sum = records.length := by
  have hcounts : (ofRecords records).entries.map (·.count) =
      (records.map Prod.fst).eraseDups.map fun name => (records.map Prod.fst).count name := by
    rw [entries_ofRecords, List.map_map]
    rfl
  rw [hcounts, ((eraseDups_perm_dedup _).map _).sum_eq, List.sum_map_count_dedup_eq_length, List.length_map]

theorem lookup_of_mem_entries {e : Entry} (h : e ∈ (ofRecords records).entries) :
    records.lookup e.name = some e.text ∧ e.count = (records.map Prod.fst).count e.name := by
  rw [entries_ofRecords] at h
  obtain ⟨name, hname, rfl⟩ := List.mem_map.mp h
  rw [List.mem_eraseDups, ← Ascending.isSome_lookup, Option.isSome_iff_exists] at hname
  obtain ⟨text, htext⟩ := hname
  simp [entryOf, htext]

theorem find?_name_eq_some_iff {e : Entry} (hnodup : (entries.map (·.name)).Nodup) :
    entries.find? (·.name = name) = some e ↔ e ∈ entries ∧ e.name = name := by
  constructor
  · intro h
    exact ⟨List.mem_of_find?_eq_some h, by simpa using List.find?_some h⟩
  · rintro ⟨he, hname⟩
    have hsome : (entries.find? (·.name = name)).isSome = true :=
      List.find?_isSome.mpr ⟨e, he, by simpa using hname⟩
    obtain ⟨found, hfound⟩ := Option.isSome_iff_exists.mp hsome
    have hsame : found.name = name := by simpa using List.find?_some hfound
    rw [hfound, List.inj_on_of_nodup_map hnodup (List.mem_of_find?_eq_some hfound) he (hsame.trans hname.symm)]

/--
As long as no name fills its count, every record goes through, and the entries and answers are those of a tally that is
searched from the front.
-/
theorem indexed_of_records (hfit : ∀ name, (records.map Prod.fst).count name < 0x100000000) :
    ∃ t, Indexed.ofRecords? records = some t ∧
      t.entries.map (·.name) = (records.map Prod.fst).eraseDups ∧
      (∀ e ∈ t.entries, records.lookup e.name = some e.text ∧ e.count = (records.map Prod.fst).count e.name) ∧
      (∀ name e, t.get? name = some e ↔ e ∈ t.entries ∧ e.name = name) ∧
      (∀ name, (t.get? name).isSome = true ↔ name ∈ records.map Prod.fst) ∧
      (∀ name place, t.places.lookup name = some place ↔ (t.entries[place]?).map (·.name) = some name) ∧
      t.size = (records.map Prod.fst).dedup.length ∧
      (t.entries.map (·.count)).sum = records.length ∧
      t.entries = (ofRecords records).entries ∧ ∀ name, t.get? name = (ofRecords records).get? name := by
  obtain ⟨t, hrun, hentries, hagrees⟩ := Indexed.exists_ofRecords? hfit
  have hnames : t.entries.map (·.name) = (records.map Prod.fst).eraseDups := by
    rw [hentries, map_name_entries]
  have hnodup : (t.entries.map (·.name)).Nodup := hnames ▸ nodup_eraseDups _
  refine ⟨t, hrun, hnames, fun e he => lookup_of_mem_entries (hentries ▸ he), fun name e => ?_, fun name => ?_,
    fun name place => hagrees.lookup_eq_some_iff hnodup, ?_, ?_, hentries, fun name => ?_⟩
  · rw [hagrees.get?_eq, find?_name_eq_some_iff hnodup]
  · rw [hagrees.get?_eq, List.find?_isSome, ← List.mem_eraseDups, ← hnames, List.mem_map]
    simp
  · unfold Indexed.size
    rw [hentries, length_entries]
  · rw [hentries, sum_counts]
  · rw [hagrees.get?_eq, hentries]
    rfl

def sightings : List (String × String) :=
  [("goblin", "first"), ("rat", "a rat"), ("goblin", "second"), ("", "nobody"), ("rat", "")]

theorem indexed_of_records_sightings :
    (∀ name, (sightings.map Prod.fst).count name < 0x100000000) ∧
      ∃ t, Indexed.ofRecords? sightings = some t ∧
        t.entries = [⟨"goblin", "first", 2⟩, ⟨"rat", "a rat", 2⟩, ⟨"", "nobody", 1⟩] ∧
        t.get? "rat" = some ⟨"rat", "a rat", 2⟩ ∧ t.get? "orc" = none ∧
        t.places.lookup "" = some 2 ∧ t.size = 3 ∧ (t.entries.map (·.count)).sum = 5 := by
  have hfit : ∀ name, (sightings.map Prod.fst).count name < 0x100000000 :=
    fun name => lt_of_le_of_lt List.count_le_length (by decide)
  obtain ⟨t, hrun, -, -, hget, hknown, hplaces, hsize, hsum, hentries, -⟩ := indexed_of_records hfit
  have hthree : t.entries = [⟨"goblin", "first", 2⟩, ⟨"rat", "a rat", 2⟩, ⟨"", "nobody", 1⟩] := by
    rw [hentries]
    decide
  refine ⟨hfit, t, hrun, hthree, (hget _ _).mpr ?_, ?_, (hplaces _ _).mpr ?_, hsize.trans (by decide), hsum⟩
  · rw [hthree]
    decide
  · rw [← Option.not_isSome_iff_eq_none, hknown]
    decide
  · rw [hthree]
    decide

end Tabletop.Tally
