import Mathlib.Data.List.Induction
import Tabletop.Expansion.Tally

/-!
# What a tally holds

After any records a tally has one entry for each recorded name, in the order in which the names came up
first, with the text of the first record and the number of records.
-/

namespace Tabletop

theorem nodup_eraseDups {α : Type} [BEq α] [LawfulBEq α] (l : List α) : l.eraseDups.Nodup := by
  match l with
  | [] => exact List.nodup_nil
  | a :: l =>
    rw [List.eraseDups_cons, List.nodup_cons]
    refine ⟨fun h => ?_, nodup_eraseDups (l.filter fun b => !b == a)⟩
    simpa using List.mem_eraseDups.mp h
termination_by l.length
decreasing_by exact Nat.lt_succ_of_le (List.length_filter_le _ l)

theorem eraseDups_concat {α : Type} [BEq α] [LawfulBEq α] (l : List α) (a : α) :
    (l ++ [a]).eraseDups = if a ∈ l then l.eraseDups else l.eraseDups ++ [a] := by
  rw [List.eraseDups_append]
  by_cases h : a ∈ l <;> simp [h, List.removeAll, List.eraseDups_cons]

namespace Tally

/-! ## One record -/

variable {name text : String}

theorem recordIn_of_mem {names : List String} {entry : String → Entry} (hnodup : names.Nodup)
    (hentry : ∀ n, (entry n).name = n) (hname : name ∈ names) :
    recordIn name text (names.map entry) =
      names.map fun n => if n = name then { entry n with count := (entry n).count + 1 } else entry n := by
  induction names with
  | nil => simp at hname
  | cons n names ih =>
    rw [List.nodup_cons] at hnodup
    rw [List.map_cons, List.map_cons, recordIn]
    by_cases h : n = name
    · subst h
      have hrest : names.map entry = names.map fun m =>
          if m = n then { entry m with count := (entry m).count + 1 } else entry m := by
        refine List.map_congr_left fun m hm => ?_
        rw [if_neg]
        rintro rfl
        exact hnodup.1 hm
      rw [if_pos (hentry n), if_pos rfl, hrest]
    · rw [if_neg (by rwa [hentry]), if_neg h, ih hnodup.2 ((List.mem_cons.mp hname).resolve_left (Ne.symm h))]

theorem recordIn_eq_append {entries : List Entry} (h : ∀ e ∈ entries, e.name ≠ name) :
    recordIn name text entries = entries ++ [⟨name, text, 1⟩] := by
  induction entries with
  | nil => rfl
  | cons e rest ih =>
    rw [List.forall_mem_cons] at h
    unfold recordIn
    rw [if_neg h.1, ih h.2, List.cons_append]

theorem record_of_get? {t : Tally} (h : (t.get? name).isSome = true) (other : String) :
    t.record name text = t.record name other := by
  have : recordIn name text t.entries = recordIn name other t.entries := by
    rw [get?] at h
    revert h
    induction t.entries with
    | nil => simp
    | cons e rest ih =>
      intro h
      rw [recordIn, recordIn]
      by_cases he : e.name = name
      · rw [if_pos he, if_pos he]
      · rw [if_neg he, if_neg he, ih (by simpa [he] using h)]
  rw [record, record, this]

/-! ## Many records -/

def ofRecords (records : List (String × String)) : Tally :=
  records.foldl (fun t (name, text) => t.record name text) {}

@[simp]
theorem ofRecords_concat (records : List (String × String)) (name text : String) :
    ofRecords (records ++ [(name, text)]) = (ofRecords records).record name text := by
  simp [ofRecords]

def entryOf (records : List (String × String)) (name : String) : Entry :=
  ⟨name, (records.lookup name).getD "", (records.map Prod.fst).count name⟩

section Concat

variable {records : List (String × String)} {n : String}

theorem entryOf_concat_of_ne (h : n ≠ name) :
    entryOf (records ++ [(name, text)]) n = entryOf records n := by
  have hlookup : [(name, text)].lookup n = none := by simp [h]
  rw [entryOf, entryOf, List.lookup_append, hlookup, Option.or_none]
  simp [Ne.symm h]

theorem entryOf_concat_of_mem (h : name ∈ records.map Prod.fst) :
    entryOf (records ++ [(name, text)]) name =
      { entryOf records name with count := (entryOf records name).count + 1 } := by
  obtain ⟨record, hrecord, rfl⟩ := List.mem_map.mp h
  have hsome : (records.lookup record.1).isSome = true :=
    List.lookup_isSome_iff.mpr ⟨record, hrecord, beq_self_eq_true _⟩
  obtain ⟨first, hfirst⟩ := Option.isSome_iff_exists.mp hsome
  simp [entryOf, List.lookup_append, hfirst]

theorem entryOf_concat_of_not_mem (h : name ∉ records.map Prod.fst) :
    entryOf (records ++ [(name, text)]) name = ⟨name, text, 1⟩ := by
  have hnone : records.lookup name = none := by
    rw [List.lookup_eq_none_iff]
    intro record hrecord
    rw [bne_iff_ne]
    rintro rfl
    exact h (List.mem_map_of_mem hrecord)
  simp [entryOf, List.lookup_append, hnone, List.count_eq_zero_of_not_mem h]

end Concat

theorem entries_ofRecords (records : List (String × String)) :
    (ofRecords records).entries = (records.map Prod.fst).eraseDups.map (entryOf records) := by
  induction records using List.reverseRecOn with
  | nil => rfl
  | append_singleton records record ih =>
    obtain ⟨name, text⟩ := record
    rw [ofRecords_concat, record, ih, List.map_append, List.map_singleton, eraseDups_concat]
    -- A known name has its count raised where it stands, and a new one goes to the end.
    by_cases hname : name ∈ records.map Prod.fst
    · rw [if_pos hname, recordIn_of_mem (nodup_eraseDups _) (fun _ => rfl)
        (List.mem_eraseDups.mpr hname)]
      refine List.map_congr_left fun n hn => ?_
      split
      next h =>
        rw [h]
        exact (entryOf_concat_of_mem hname).symm
      next h => exact (entryOf_concat_of_ne h).symm
    · have hnew : ∀ e ∈ (records.map Prod.fst).eraseDups.map (entryOf records), e.name ≠ name := by
        rw [List.forall_mem_map]
        rintro n hn rfl
        exact hname (List.mem_eraseDups.mp hn)
      rw [if_neg hname, recordIn_eq_append hnew, List.map_append, List.map_singleton, entryOf_concat_of_not_mem hname]
      have hsame : (records.map Prod.fst).eraseDups.map (entryOf records) =
          (records.map Prod.fst).eraseDups.map (entryOf (records ++ [(name, text)])) := by
        refine List.map_congr_left fun n hn => (entryOf_concat_of_ne ?_).symm
        rintro rfl
        exact hname (List.mem_eraseDups.mp hn)
      rw [hsame]

end Tally

end Tabletop
