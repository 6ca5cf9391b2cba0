import Mathlib.Order.Bounds.Basic
import Tabletop.Proofs.Compendium.Alike
import Tabletop.Proofs.Compendium.Rearranged

/-!
# What a content text adds

A text adds the entities written in it in the order of their keys. A key that is there already is refused. A key
that is written twice in one text is not: the last entity under it is the one that is added, and the others are
never seen.
-/

namespace Tabletop.Compendium

variable {c : Compendium} {entries written : List (String × Entity)} {text key : String} {e : Entity} {order : Ron.Order}

/-! ## Adding all or none -/

theorem insertEach_of_lacks (hlacks : c.Lacks entries) (hnodup : (entries.map Prod.fst).Nodup) :
    c.insertEach entries = .ok ⟨c.entries ++ (filled entries).entries⟩ := by
  unfold insertEach
  rw [insertAll_of_lacks hlacks hnodup]
  rfl

theorem insertEach_of_held (hsorted : Ascending.Sorted entries) (hheld : ¬ c.Lacks entries) :
    ∃ key, IsLeast {key | key ∈ entries.map Prod.fst ∧ key ∈ c.entries.map Prod.fst} key ∧
      c.insertEach entries = .error (.duplicateKey key) := by
  obtain ⟨before, key, e, after, rfl, hbefore, hkey⟩ := exists_first_held hheld
  have hnodup := hsorted.nodup_map_fst
  rw [List.map_append, List.nodup_append] at hnodup
  unfold Ascending.Sorted at hsorted
  rw [List.pairwise_append, List.pairwise_cons] at hsorted
  refine ⟨key, ⟨⟨by simp, hkey⟩, ?_⟩, ?_⟩
  · rintro k ⟨hk, hkheld⟩
    rw [List.map_append, List.map_cons, List.mem_append, List.mem_cons] at hk
    rcases hk with hk | rfl | hk
    · exact absurd hkheld (hbefore k hk)
    · exact le_refl k
    · obtain ⟨entry, hentry, rfl⟩ := List.mem_map.mp hk
      exact (compare_lt_iff_lt.mp (hsorted.2.1.1 entry hentry)).le
  · have hrefused : insert ⟨c.entries ++ (filled before).entries⟩ key e = .error ⟨key⟩ := by
      unfold insert
      rw [if_pos (isSome_get?.mpr (by simp [hkey]))]
    unfold insertEach
    rw [insertAll_append hbefore hnodup.1, insertAll]
    unfold filled at hrefused
    simp only [hrefused]

/-! ## Entries as they are written -/

theorem lacks_ofList : c.Lacks (Ascending.ofList written) ↔ c.Lacks written := by
  unfold Lacks
  simp only [Ascending.mem_map_fst_ofList]

theorem filled_map_fst (entries : List (String × Entity)) :
    (filled entries).entries.map Prod.fst = entries.map Prod.fst := by
  unfold filled
  rw [List.map_map]
  rfl

theorem addWritten_of_lacks (hlacks : c.Lacks written) :
    c.addWritten written = .ok ⟨c.entries ++ (filled (Ascending.ofList written)).entries⟩ :=
  insertEach_of_lacks (lacks_ofList.mpr hlacks) (Ascending.sorted_ofList written).nodup_map_fst

theorem addWritten_of_held (hheld : ¬ c.Lacks written) :
    ∃ key, IsLeast {key | key ∈ written.map Prod.fst ∧ key ∈ c.entries.map Prod.fst} key ∧
      c.addWritten written = .error (.duplicateKey key) := by
  have hleast := insertEach_of_held (Ascending.sorted_ofList written) (lacks_ofList.not.mpr hheld)
  simp only [Ascending.mem_map_fst_ofList] at hleast
  exact hleast

theorem extend_eq (hread : Ron.readContent text order = .ok written) (c : Compendium) :
    c.extend text order = c.addWritten written := by
  unfold extend
  rw [hread]

theorem ofText_eq (hread : Ron.readContent text order = .ok written) :
    ofText text order = .ok (filled (Ascending.ofList written)) := by
  unfold ofText
  rw [extend_eq hread, addWritten_of_lacks fun _ _ => List.not_mem_nil]
  rfl

theorem ascending_filled (written : List (String × Entity)) :
    (filled (Ascending.ofList written)).entries.Pairwise fun a b => a.1 < b.1 := by
  unfold filled
  rw [List.pairwise_map]
  exact (Ascending.sorted_ofList written).imp compare_lt_iff_lt.mp

theorem mem_filled_iff :
    (key, e) ∈ (filled (Ascending.ofList written)).entries ↔
      ∃ before last after, written = before ++ (key, last) :: after ∧ key ∉ after.map Prod.fst ∧ prepared last = e := by
  unfold filled
  rw [List.mem_map]
  constructor
  · rintro ⟨⟨k, last⟩, hmem, heq⟩
    cases heq
    obtain ⟨before, after, hwritten, hafter⟩ := Ascending.mem_ofList_iff_last.mp hmem
    exact ⟨before, last, after, hwritten, hafter, rfl⟩
  · rintro ⟨before, last, after, hwritten, hafter, rfl⟩
    exact ⟨(key, last), Ascending.mem_ofList_iff_last.mpr ⟨before, after, hwritten, hafter⟩, rfl⟩

theorem size_filled (written : List (String × Entity)) :
    (filled (Ascending.ofList written)).size = (written.map Prod.fst).dedup.length := by
  rw [← (Ascending.map_fst_ofList_perm written).length_eq]
  simp [size, filled]

theorem size_filled_eq_iff :
    (filled (Ascending.ofList written)).size = written.length ↔ (written.map Prod.fst).Nodup := by
  rw [size_filled, ← List.length_map Prod.fst]
  constructor
  · intro h
    rw [← (List.dedup_sublist _).eq_of_length h]
    exact List.nodup_dedup _
  · intro h
    rw [h.dedup]

/-! ## One text and another -/

/--
A content text is always a compendium of its own, with the last entity written under each key. It is refused only for
the least key that is there already. The order of outcomes matters only to outcomes under one key.
-/
theorem extend_of_written (hread : Ron.readContent text order = .ok written) (c : Compendium) :
    ∃ own : Compendium, ofText text order = .ok own ∧
      (own.entries.Pairwise fun a b => a.1 < b.1) ∧
      (∀ key e, (key, e) ∈ own.entries ↔ ∃ before last after,
        written = before ++ (key, last) :: after ∧ key ∉ after.map Prod.fst ∧ prepared last = e) ∧
      own.size = (written.map Prod.fst).dedup.length ∧
      (own.size = written.length ↔ (written.map Prod.fst).Nodup) ∧
      (c.Lacks written → c.extend text order = .ok ⟨c.entries ++ own.entries⟩) ∧
      (¬ c.Lacks written → ∃ key, IsLeast {key | key ∈ written.map Prod.fst ∧ key ∈ c.entries.map Prod.fst} key ∧
        c.extend text order = .error (.duplicateKey key)) ∧
      ∀ other, ∃ own', ofText text other = .ok own' ∧ own.Alike own' ∧ (own.Keyed → own' = own) := by
  rw [extend_eq hread]
  refine ⟨_, ofText_eq hread, ascending_filled written, fun _ _ => mem_filled_iff, size_filled written,
    size_filled_eq_iff, addWritten_of_lacks, addWritten_of_held, fun other => ?_⟩
  obtain ⟨own', hother, halike⟩ := exists_alike_of_ofText (ofText_eq hread) other
  exact ⟨own', hother, halike, halike.eq⟩

def flock : String := "\x7b\"owl\": (name: \"Owl\"), \"jay\": (name: \"Jay\"), \"owl\": (name: \"Barn Owl\")\x7d"

theorem extend_of_written_flock :
    ∃ written own, Ron.readContent flock = .ok written ∧ written.map Prod.fst = ["owl", "jay", "owl"] ∧
      ofText flock = .ok own ∧ own.size = 2 ∧ ("owl", prepared { name := "Barn Owl" }) ∈ own.entries ∧
      ¬ (filled barn).Lacks written ∧ ∃ key, key ∈ ["owl", "jay", "owl"] ∧ key ∈ ["rat", "owl"] ∧
        (filled barn).extend flock = .error (.duplicateKey key) := by
  have hread : Ron.readContent flock =
      .ok [("owl", { name := "Owl" }), ("jay", { name := "Jay" }), ("owl", { name := "Barn Owl" })] := by
    decide +kernel
  have hheld : ¬ (filled barn).Lacks
      [("owl", { name := "Owl" }), ("jay", { name := "Jay" }), ("owl", { name := "Barn Owl" })] := by
    unfold Lacks
    decide
  obtain ⟨own, hown, -, hlast, hsize, -, -, hrefused, -⟩ := extend_of_written hread (filled barn)
  obtain ⟨key, ⟨⟨hwritten, hbarn⟩, -⟩, hrefused⟩ := hrefused hheld
  refine ⟨_, own, hread, rfl, hown, hsize, ?_, hheld, key, hwritten, hbarn, hrefused⟩
  exact (hlast _ _).mpr ⟨[("owl", { name := "Owl" }), ("jay", { name := "Jay" })], _, [], rfl, List.not_mem_nil, rfl⟩

/-- One of two entities that are written under one key is passed over in silence. -/
theorem ofText_repeated_key :
    ∃ written own, Ron.readContent flock = .ok written ∧ ofText flock = .ok own ∧ own.size < written.length ∧
      (∃ e, ("owl", e) ∈ written ∧ e.name = "Owl" ∧ ∀ kept ∈ own.entities, kept.name ≠ "Owl") ∧
      ofText flock ≠ .error (.duplicateKey "owl") := by
  have hread : Ron.readContent flock =
      .ok [("owl", { name := "Owl" }), ("jay", { name := "Jay" }), ("owl", { name := "Barn Owl" })] := by
    decide +kernel
  have hown := ofText_eq hread
  refine ⟨_, _, hread, hown, by decide, ⟨_, List.mem_cons_self, rfl, by decide⟩, ?_⟩
  rw [hown]
  exact fun h => nomatch h

end Tabletop.Compendium
