import Mathlib.Data.List.Dedup
import Mathlib.Data.List.Induction
import Tabletop.Ascending

/-!
# Ascending lists

An ascending list has one entry for each of its keys, in ascending order, and of the entries that were put
under one key it has the last.
-/

namespace Tabletop.Ascending

variable {κ α : Type} [Ord κ] {key k : κ} {value v : α} {l : List (κ × α)}

/-- The keys ascend, so each stands in the list but once. -/
def Sorted (l : List (κ × α)) : Prop := l.Pairwise fun a b => compare a.1 b.1 = .lt

theorem mem_insert_self (key : κ) (value : α) (l : List (κ × α)) : (key, value) ∈ insert key value l := by
  induction l with
  | nil => exact List.mem_singleton_self _
  | cons pair rest ih =>
    obtain ⟨k, v⟩ := pair
    unfold insert
    split <;> simp [ih]

theorem mem_of_mem_insert {pair : κ × α} (h : pair ∈ insert key value l) :
    pair = (key, value) ∨ pair ∈ l := by
  induction l with
  | nil => simpa [insert] using h
  | cons first rest ih =>
    obtain ⟨k, v⟩ := first
    unfold insert at h
    split at h
    · simpa using h
    · rcases List.mem_cons.mp h with rfl | h
      · exact .inl rfl
      · exact .inr (List.mem_cons_of_mem _ h)
    · rcases List.mem_cons.mp h with rfl | h
      · exact .inr List.mem_cons_self
      · exact (ih h).imp_right (List.mem_cons_of_mem _)

omit [Ord κ] in
theorem lookup_cons_eq [DecidableEq κ] (k' : κ) :
    ((k, v) :: l).lookup k' = if k' = k then some v else l.lookup k' := by
  rw [List.lookup_cons]
  split <;> simp_all

omit [Ord κ] in
theorem isSome_lookup [DecidableEq κ] : (l.lookup key).isSome = true ↔ key ∈ l.map Prod.fst := by
  rw [List.lookup_isSome_iff, List.mem_map]
  constructor
  · rintro ⟨entry, hentry, hkey⟩
    exact ⟨entry, hentry, (eq_of_beq hkey).symm⟩
  · rintro ⟨entry, hentry, rfl⟩
    exact ⟨entry, hentry, beq_self_eq_true _⟩

theorem ofList_concat (l : List (κ × α)) (key : κ) (value : α) :
    ofList (l ++ [(key, value)]) = insert key value (ofList l) := by
  unfold ofList
  rw [List.foldl_append, List.foldl_cons, List.foldl_nil]

section Lawful

variable [Std.LawfulEqOrd κ]

theorem mem_insert_of_mem {pair : κ × α} (h : pair ∈ l) (hne : pair.1 ≠ key) :
    pair ∈ insert key value l := by
  induction l with
  | nil => simp at h
  | cons first rest ih =>
    obtain ⟨k, v⟩ := first
    unfold insert
    split
    · exact List.mem_cons_of_mem _ h
    next heq =>
      rcases List.mem_cons.mp h with rfl | h
      · exact absurd (Std.LawfulEqOrd.eq_of_compare heq).symm hne
      · exact List.mem_cons_of_mem _ h
    · rcases List.mem_cons.mp h with rfl | h
      · exact List.mem_cons_self
      · exact List.mem_cons_of_mem _ (ih h)

theorem lookup_insert [DecidableEq κ] (k : κ) :
    (insert key value l).lookup k = if k = key then some value else l.lookup k := by
  induction l with
  | nil => exact lookup_cons_eq k
  | cons first rest ih =>
    obtain ⟨k', v'⟩ := first
    unfold insert
    split
    next => exact lookup_cons_eq k
    next heq =>
      obtain rfl := Std.LawfulEqOrd.eq_of_compare heq
      rw [lookup_cons_eq, lookup_cons_eq]
      split <;> rfl
    next hgt =>
      have hne : key ≠ k' := by
        rintro rfl
        simp at hgt
      rw [lookup_cons_eq, lookup_cons_eq, ih]
      split
      next h => rw [if_neg (h ▸ hne.symm)]
      next => rfl

theorem mem_foldl_insert (value : κ → α) {keys : List κ} (h : key ∈ keys ∨ (key, value key) ∈ l) :
    (key, value key) ∈
      (keys.map fun k => (k, value k)).foldl (fun list (k, v) => insert k v list) l := by
  induction keys generalizing l with
  | nil => exact h.resolve_left (by simp)
  | cons k keys ih =>
    refine ih ?_
    rw [List.mem_cons] at h
    by_cases hkey : key = k
    · subst hkey
      exact .inr (mem_insert_self _ _ _)
    · rcases h with (h | h) | h
      · exact absurd h hkey
      · exact .inl h
      · exact .inr (mem_insert_of_mem h hkey)

theorem mem_ofList (value : κ → α) {keys : List κ} (h : key ∈ keys) :
    (key, value key) ∈ ofList (keys.map fun k => (k, value k)) :=
  mem_foldl_insert value (.inl h)

theorem insert_perm (h : key ∉ l.map Prod.fst) : (insert key value l).Perm ((key, value) :: l) := by
  induction l with
  | nil => exact List.Perm.refl _
  | cons first rest ih =>
    obtain ⟨k, v⟩ := first
    rw [List.map_cons, List.mem_cons, not_or] at h
    unfold insert
    split
    · exact List.Perm.refl _
    next heq => exact absurd (Std.LawfulEqOrd.eq_of_compare heq) h.1
    · exact ((ih h.2).cons _).trans (List.Perm.swap _ _ _)

theorem ofList_perm (h : (l.map Prod.fst).Nodup) : (ofList l).Perm l := by
  suffices ∀ acc : List (κ × α), (l.map Prod.fst ++ acc.map Prod.fst).Nodup →
      (l.foldl (fun list (k, v) => insert k v list) acc).Perm (l ++ acc) by
    unfold ofList
    simpa using this [] (by simpa using h)
  clear h
  induction l with
  | nil => exact fun acc _ => List.Perm.refl acc
  | cons entry rest ih =>
    intro acc h
    obtain ⟨k, v⟩ := entry
    rw [List.map_cons, List.cons_append, List.nodup_cons, List.mem_append, not_or] at h
    have hinsert : (insert k v acc).Perm ((k, v) :: acc) := insert_perm h.1.2
    have hkeys : (rest.map Prod.fst ++ (insert k v acc).map Prod.fst).Perm
        (k :: (rest.map Prod.fst ++ acc.map Prod.fst)) :=
      ((hinsert.map Prod.fst).append_left _).trans List.perm_middle
    refine (ih _ (hkeys.nodup_iff.mpr ?_)).trans ((hinsert.append_left rest).trans List.perm_middle)
    rw [List.nodup_cons, List.mem_append, not_or]
    exact h

theorem ne_of_compare {a b : κ × α} (h : compare a.1 b.1 = .lt) : a ≠ b := by
  rintro rfl
  simp at h

theorem Sorted.lookup_eq_some [DecidableEq κ] (h : Sorted l) : l.lookup key = some value ↔ (key, value) ∈ l := by
  induction l with
  | nil => simp
  | cons first rest ih =>
    obtain ⟨k, v⟩ := first
    have hrest := List.pairwise_cons.mp h
    rw [lookup_cons_eq, List.mem_cons, ← ih hrest.2]
    split
    next heq =>
      subst heq
      have hnot : rest.lookup key ≠ some value := by
        rw [ne_eq, ih hrest.2]
        intro hmem
        have := hrest.1 _ hmem
        simp at this
      simp [hnot, eq_comm]
    next hne => simp [hne]

theorem Sorted.nodup_map_fst (h : Sorted l) : (l.map Prod.fst).Nodup := by
  unfold List.Nodup
  rw [List.pairwise_map]
  refine h.imp fun {a b} hlt heq => ?_
  rw [heq] at hlt
  simp at hlt

theorem lookup_ofList [DecidableEq κ] (l : List (κ × α)) (k : κ) : (ofList l).lookup k = l.reverse.lookup k := by
  induction l using List.reverseRecOn with
  | nil => rfl
  | append_singleton l entry ih =>
    obtain ⟨key, value⟩ := entry
    rw [ofList_concat, lookup_insert, ih, List.reverse_concat, lookup_cons_eq]

theorem mem_map_fst_ofList [DecidableEq κ] : key ∈ (ofList l).map Prod.fst ↔ key ∈ l.map Prod.fst := by
  rw [← isSome_lookup, lookup_ofList, isSome_lookup, List.map_reverse, List.mem_reverse]

end Lawful

theorem mem_of_mem_ofList {pair : κ × α} (h : pair ∈ ofList l) : pair ∈ l := by
  suffices ∀ acc : List (κ × α), pair ∈ l.foldl (fun list (k, v) => insert k v list) acc →
      pair ∈ acc ∨ pair ∈ l from (this [] h).resolve_left (by simp)
  clear h
  induction l with
  | nil => exact fun _ => .inl
  | cons entry rest ih =>
    intro acc h
    rcases ih _ h with h | h
    · rcases mem_of_mem_insert h with rfl | h
      · exact .inr List.mem_cons_self
      · exact .inl h
    · exact .inr (List.mem_cons_of_mem _ h)

theorem mem_ofList_iff [Std.LawfulEqOrd κ] (value : κ → α) {keys : List κ} :
    (key, v) ∈ ofList (keys.map fun k => (k, value k)) ↔ key ∈ keys ∧ v = value key := by
  constructor
  · intro h
    obtain ⟨k, hk, heq⟩ := List.mem_map.mp (mem_of_mem_ofList h)
    cases heq
    exact ⟨hk, rfl⟩
  · rintro ⟨h, rfl⟩
    exact mem_ofList value h

section Order

variable [Std.TransOrd κ] [Std.LawfulEqOrd κ]

theorem Sorted.insert (h : Sorted l) : Sorted (insert key value l) := by
  induction l with
  | nil => simp [Sorted, Ascending.insert]
  | cons first rest ih =>
    obtain ⟨k, v⟩ := first
    have hrest := List.pairwise_cons.mp h
    unfold Ascending.insert
    split
    next hlt =>
      refine List.pairwise_cons.mpr ⟨fun pair hpair => ?_, h⟩
      rcases List.mem_cons.mp hpair with rfl | hpair
      · exact hlt
      · exact Std.TransCmp.lt_trans hlt (hrest.1 pair hpair)
    next heq =>
      rw [Std.LawfulEqOrd.eq_of_compare heq]
      exact List.pairwise_cons.mpr hrest
    next hgt =>
      refine List.pairwise_cons.mpr ⟨fun pair hpair => ?_, ih hrest.2⟩
      rcases mem_of_mem_insert hpair with rfl | hpair
      · exact Std.OrientedCmp.gt_iff_lt.mp hgt
      · exact hrest.1 pair hpair

theorem sorted_ofList (l : List (κ × α)) : Sorted (ofList l) := by
  suffices ∀ acc : List (κ × α), Sorted acc →
      Sorted (l.foldl (fun list (k, v) => Ascending.insert k v list) acc) from this [] List.Pairwise.nil
  induction l with
  | nil => exact fun _ h => h
  | cons entry rest ih => exact fun acc h => ih _ h.insert

theorem mem_ofList_iff_last [DecidableEq κ] :
    (key, value) ∈ ofList l ↔ ∃ before after, l = before ++ (key, value) :: after ∧ key ∉ after.map Prod.fst := by
  rw [← (sorted_ofList l).lookup_eq_some, lookup_ofList, List.lookup_eq_some_iff]
  constructor
  · rintro ⟨after, before, hl, hafter⟩
    refine ⟨before.reverse, after.reverse, ?_, fun hmem => ?_⟩
    · rw [← List.reverse_reverse l, hl]
      simp
    · obtain ⟨entry, hentry, rfl⟩ := List.mem_map.mp hmem
      simpa using hafter entry (List.mem_reverse.mp hentry)
  · rintro ⟨before, after, rfl, hafter⟩
    refine ⟨after.reverse, before.reverse, by simp, fun entry hentry => ?_⟩
    rw [bne_iff_ne]
    rintro rfl
    exact hafter (List.mem_map_of_mem (List.mem_reverse.mp hentry))

theorem map_fst_ofList_perm [DecidableEq κ] (l : List (κ × α)) :
    ((ofList l).map Prod.fst).Perm (l.map Prod.fst).dedup := by
  rw [List.perm_ext_iff_of_nodup (sorted_ofList l).nodup_map_fst (List.nodup_dedup _)]
  intro key
  rw [mem_map_fst_ofList, List.mem_dedup]

theorem Sorted.eq_of_mem_iff {l' : List (κ × α)} (h : Sorted l) (h' : Sorted l')
    (hmem : ∀ pair, pair ∈ l ↔ pair ∈ l') : l = l' := by
  have hperm : l.Perm l' :=
    (List.perm_ext_iff_of_nodup (h.imp ne_of_compare) (h'.imp ne_of_compare)).mpr hmem
  unfold Sorted at h h'
  refine hperm.eq_of_pairwise ?_ h h'
  intro a b _ _ hab hba
  rw [Std.OrientedCmp.gt_iff_lt.mpr hab] at hba
  cases hba

end Order

/-! ## Sorting -/

theorem mergeSort_perm_eq {le : α → α → Bool} {l l' : List α}
    (htrans : ∀ a b c, le a b = true → le b c = true → le a c = true) (htotal : ∀ a b, (le a b || le b a) = true)
    (hlevel : ∀ a ∈ l, ∀ b ∈ l, le a b = true → le b a = true → a = b) (h : l.Perm l') :
    l.mergeSort le = l'.mergeSort le := by
  have hsort := List.mergeSort_perm l le
  have hsort' := (List.mergeSort_perm l' le).trans h.symm
  refine (hsort.trans hsort'.symm).eq_of_pairwise ?_ (List.pairwise_mergeSort htrans htotal l)
    (List.pairwise_mergeSort htrans htotal l')
  intro a b ha hb
  exact hlevel a (hsort.mem_iff.mp ha) b (hsort'.mem_iff.mp hb)

end Tabletop.Ascending
