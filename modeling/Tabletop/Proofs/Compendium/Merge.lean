import Tabletop.Proofs.Compendium.Index

/-!
# Merging

A merge goes through the other compendium entry by entry and adds each as it is, up to the first whose key is
there already. What has been added by then is an ordinary compendium, with indexes that fit it.
-/

namespace Tabletop.Compendium

variable {a b c ab bc : Compendium} {entries before after : List (String × Entity)} {key : String} {e : Entity}

/-! ## Entries that are prepared already -/

theorem prepared_prepared (e : Entity) : prepared (prepared e) = prepared e := by
  have htable : (e.table.map Table.expand).map Table.expand = e.table.map Table.expand := by
    cases e.table with
    | none => rfl
    | some t => exact congrArg some (Table.expand_expand t)
  unfold prepared
  simp only [htable]

theorem Reachable.logged (h : Reachable c) : ∃ log, Logged c log := by
  induction h with
  | empty => exact ⟨[], rfl, List.nodup_nil⟩
  | insert _ hinsert ih =>
    obtain ⟨log, hlog⟩ := ih
    exact ⟨_, hlog.insert hinsert⟩

theorem Reachable.nodup (h : Reachable c) : (c.entries.map Prod.fst).Nodup := by
  obtain ⟨log, hlog⟩ := h.logged
  exact hlog.map_fst ▸ hlog.nodup

theorem Reachable.indexed (h : Reachable c) : c.Indexed := by
  obtain ⟨log, hlog⟩ := h.logged
  exact hlog.indexed

theorem Reachable.prepared_eq (h : Reachable c) (he : e ∈ c.entities) : Compendium.prepared e = e := by
  obtain ⟨written, rfl⟩ := h.prepared he
  exact prepared_prepared written

/-! ## Adding one entry after another -/

/-- No entry has a key that the compendium has. -/
def Lacks (c : Compendium) (entries : List (String × Entity)) : Prop :=
  ∀ key ∈ entries.map Prod.fst, key ∉ c.entries.map Prod.fst

theorem insertAll_append (hlacks : c.Lacks entries) (hnodup : (entries.map Prod.fst).Nodup)
    (rest : List (String × Entity)) :
    c.insertAll (entries ++ rest) =
      insertAll ⟨c.entries ++ entries.map fun (key, e) => (key, prepared e)⟩ rest := by
  induction entries generalizing c with
  | nil => simp
  | cons entry entries ih =>
    obtain ⟨key, e⟩ := entry
    rw [List.map_cons, List.nodup_cons] at hnodup
    have hinsert : c.insert key e = .ok ⟨c.entries ++ [(key, prepared e)]⟩ :=
      insert_eq_ok.mpr ⟨hlacks key (by simp), rfl⟩
    have hrest : Lacks ⟨c.entries ++ [(key, prepared e)]⟩ entries := by
      intro k hk
      have hne : k ≠ key := by
        rintro rfl
        exact hnodup.1 hk
      have hnew := hlacks k (List.mem_cons_of_mem _ hk)
      simp only [List.map_append, List.map_singleton, List.mem_append, List.mem_singleton, not_or]
      exact ⟨hnew, hne⟩
    rw [List.cons_append, insertAll, hinsert]
    simp only [ih hrest hnodup.2, List.append_assoc, List.map_cons, List.singleton_append]

theorem insertAll_of_lacks (hlacks : c.Lacks entries) (hnodup : (entries.map Prod.fst).Nodup) :
    c.insertAll entries = (⟨c.entries ++ entries.map fun (key, e) => (key, prepared e)⟩, none) := by
  have := insertAll_append hlacks hnodup []
  rwa [List.append_nil] at this

theorem exists_first_held (h : ¬ c.Lacks entries) :
    ∃ before key e after, entries = before ++ (key, e) :: after ∧ c.Lacks before ∧
      key ∈ c.entries.map Prod.fst := by
  unfold Lacks at h
  push Not at h
  obtain ⟨key, hkey, hheld⟩ := h
  obtain ⟨entry, hentry, rfl⟩ := List.mem_map.mp hkey
  have hfound : (entries.find? fun entry => (c.get? entry.1).isSome).isSome :=
    List.find?_isSome.mpr ⟨entry, hentry, isSome_get?.mpr hheld⟩
  obtain ⟨⟨k, e⟩, hfind⟩ := Option.isSome_iff_exists.mp hfound
  obtain ⟨hk, before, after, rfl, hbefore⟩ := List.find?_eq_some_iff_append.mp hfind
  refine ⟨before, k, e, after, rfl, fun k' hk' => ?_, isSome_get?.mp hk⟩
  obtain ⟨earlier, hearlier, rfl⟩ := List.mem_map.mp hk'
  rw [← isSome_get?]
  simpa using hbefore earlier hearlier

/-! ## Merging -/

section Merge

variable (hb : Reachable b)
include hb

theorem merge_eq_insertAll (hentries : b.entries = before ++ after) (hlacks : a.Lacks before) :
    a.merge b = insertAll ⟨a.entries ++ before⟩ after := by
  have hnodup := hb.nodup
  rw [hentries, List.map_append, List.nodup_append] at hnodup
  have hprepared : before.map (fun (key, e) => (key, prepared e)) = before := by
    conv_rhs => rw [← List.map_id before]
    apply List.map_congr_left
    rintro ⟨key, e⟩ hentry
    have he : e ∈ b.entities := List.mem_map.mpr ⟨(key, e), by simp [hentries, hentry], rfl⟩
    exact congrArg (key, ·) (hb.prepared_eq he)
  unfold merge
  rw [hentries, insertAll_append hlacks hnodup.1, hprepared]

theorem merge_of_lacks (hlacks : a.Lacks b.entries) : a.merge b = (⟨a.entries ++ b.entries⟩, none) :=
  merge_eq_insertAll hb (List.append_nil _).symm hlacks

theorem merge_of_held (hentries : b.entries = before ++ (key, e) :: after) (hlacks : a.Lacks before)
    (hheld : key ∈ a.entries.map Prod.fst) : a.merge b = (⟨a.entries ++ before⟩, some ⟨key⟩) := by
  have hrefused : (Compendium.mk (a.entries ++ before)).insert key e = .error ⟨key⟩ := by
    unfold insert
    rw [if_pos (isSome_get?.mpr (by simp [hheld]))]
  rw [merge_eq_insertAll hb hentries hlacks, insertAll, hrefused]

theorem lacks_of_merge (h : a.merge b = (ab, none)) : a.Lacks b.entries ∧ ab = ⟨a.entries ++ b.entries⟩ := by
  by_cases hlacks : a.Lacks b.entries
  · rw [merge_of_lacks hb hlacks] at h
    cases h
    exact ⟨hlacks, rfl⟩
  · obtain ⟨before, key, e, after, hentries, hbefore, hheld⟩ := exists_first_held hlacks
    rw [merge_of_held hb hentries hbefore hheld] at h
    cases h

end Merge

theorem merge_assoc (hb : Reachable b) (hc : Reachable c) (hab : a.merge b = (ab, none))
    (hbc : b.merge c = (bc, none)) : ab.merge c = a.merge bc := by
  obtain ⟨hlacks, rfl⟩ := lacks_of_merge hb hab
  have hreach : Reachable bc := by
    have := hb.insertAll c.entries
    rwa [show b.insertAll c.entries = b.merge c from rfl, hbc] at this
  obtain ⟨-, rfl⟩ := lacks_of_merge hc hbc
  exact (merge_eq_insertAll hreach rfl hlacks).symm

/-! ## What a merge does -/

/--
A merge adds the entries in front of the first key that is there already, as they are, and reports that key. The
indexes are those of the entries. Merges that go through may be grouped either way.
-/
theorem merge_of_reachable (ha : Reachable a) (hb : Reachable b) :
    (∀ e ∈ b.entities, prepared e = e) ∧
    (a.Lacks b.entries → a.merge b = (⟨a.entries ++ b.entries⟩, none)) ∧
    (¬ a.Lacks b.entries → ∃ before key e after, b.entries = before ++ (key, e) :: after ∧ a.Lacks before ∧
      key ∈ a.entries.map Prod.fst ∧ a.merge b = (⟨a.entries ++ before⟩, some ⟨key⟩)) ∧
    (∀ key e, (a.merge b).1.get? key = some e ↔ (key, e) ∈ (a.merge b).1.entries) ∧
    (a.merge b).1.Indexed ∧
    (∀ added, (a.merge b).1.entries = a.entries ++ added → (a.merge b).1.index =
      (added.zipIdx a.size).foldl (fun ix ((key, e), place) => ix.record place key e) a.index) ∧
    ∀ c ab bc, Reachable c → a.merge b = (ab, none) → b.merge c = (bc, none) → ab.merge c = a.merge bc := by
  have hmerged : Reachable (a.merge b).1 := ha.insertAll b.entries
  refine ⟨fun e => hb.prepared_eq, merge_of_lacks hb, fun hheld => ?_, fun key e => get?_eq_some hmerged.nodup,
    hmerged.indexed, fun added hadded => ?_, fun c ab bc hc hab hbc => merge_assoc hb hc hab hbc⟩
  · obtain ⟨before, key, e, after, hentries, hbefore, hkey⟩ := exists_first_held hheld
    exact ⟨before, key, e, after, hentries, hbefore, hkey, merge_of_held hb hentries hbefore hkey⟩
  · unfold index
    rw [hadded]
    exact Index.ofEntries_append a.entries added

def barn : List (String × Entity) := [("rat", { name := "Rat" }), ("owl", { name := "Owl" })]

def yard : List (String × Entity) := [("cat", { name := "Cat" }), ("owl", { name := "Owl" }), ("dog", { name := "Dog" })]

theorem merge_of_reachable_owl :
    ∃ a b c d : Compendium, Reachable a ∧ Reachable b ∧ Reachable c ∧ Reachable d ∧ ¬ a.Lacks b.entries ∧
      (∃ before key e after, b.entries = before ++ (key, e) :: after ∧ a.Lacks before ∧
        key ∈ a.entries.map Prod.fst ∧ a.merge b = (⟨a.entries ++ before⟩, some ⟨key⟩) ∧ key = "owl") ∧
      (a.merge b).1.entries.map Prod.fst = ["rat", "owl", "cat"] ∧ (a.merge b).1.Indexed ∧
      a.Lacks c.entries ∧ a.merge c = (⟨a.entries ++ c.entries⟩, none) ∧
      ∃ ac cd, a.merge c = (ac, none) ∧ c.merge d = (cd, none) ∧ ac.merge d = a.merge cd ∧
        (ac.merge d).2 = none := by
  have ha := Reachable.empty.insertAll barn
  have hb := Reachable.empty.insertAll yard
  have hc := Reachable.empty.insertAll [("fox", { name := "Fox" })]
  have hd := Reachable.empty.insertAll [("elk", { name := "Elk" })]
  have hheld : ¬ (({} : Compendium).insertAll barn).1.Lacks (({} : Compendium).insertAll yard).1.entries := by
    unfold Lacks
    decide
  have hlacks : (({} : Compendium).insertAll barn).1.Lacks
      (({} : Compendium).insertAll [("fox", { name := "Fox" })]).1.entries := by
    unfold Lacks
    decide
  obtain ⟨-, -, hrefused, -, hindexed, -⟩ := merge_of_reachable ha hb
  obtain ⟨-, hadded, -, -, -, -, hassoc⟩ := merge_of_reachable ha hc
  obtain ⟨before, key, e, after, hentries, hbefore, hkey, hmerge⟩ := hrefused hheld
  have howl := congrArg Prod.snd hmerge
  cases howl
  exact ⟨_, _, _, _, ha, hb, hc, hd, hheld, ⟨before, _, e, after, hentries, hbefore, hkey, hmerge, rfl⟩, rfl, hindexed,
    hlacks, hadded hlacks, _, _, hadded hlacks, rfl, hassoc _ _ _ hd (hadded hlacks) rfl, rfl⟩

end Tabletop.Compendium
