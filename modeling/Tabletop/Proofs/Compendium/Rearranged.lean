import Mathlib.Data.List.Sort
import Tabletop.Compendium.Query
import Tabletop.Proofs.Compendium.Merge

/-!
# Entries in another order

Two compendiums that the same entries were added to, in one order and in another, answer every query alike, except
that entities are listed in the order in which they were added.
-/

namespace Tabletop

namespace Compendium

variable {c c' : Compendium} {label : String} {values : List String} {field : ListField}

/-! ## Values of list fields -/

theorem mem_valuesOf {value : String} : value ∈ c.valuesOf field ↔ ∃ e ∈ c.entities, value ∈ field.get e := by
  unfold valuesOf
  rw [List.mem_map, ← List.mem_flatMap]
  constructor
  · rintro ⟨⟨seen, _⟩, hmem, rfl⟩
    exact ((Ascending.mem_ofList_iff fun _ => ()).mp hmem).1
  · intro h
    exact ⟨(value, ()), (Ascending.mem_ofList_iff fun _ => ()).mpr ⟨h, rfl⟩, rfl⟩

theorem pairwise_valuesOf (c : Compendium) (field : ListField) : (c.valuesOf field).Pairwise (· < ·) := by
  unfold valuesOf
  rw [List.pairwise_map]
  exact (Ascending.sorted_ofList _).imp compare_lt_iff_lt.mp

theorem valuesOf_ne_nil : c.valuesOf field ≠ [] ↔ ∃ e ∈ c.entities, field.get e ≠ [] := by
  simp only [ne_eq, List.eq_nil_iff_forall_not_mem, mem_valuesOf]
  push Not
  exact exists_comm.trans (exists_congr fun e => exists_and_left)

theorem mem_listValues :
    (label, values) ∈ c.listValues ↔ ∃ field : ListField, field.label = label ∧ c.valuesOf field = values ∧ values ≠ [] := by
  have hlabels : ((ListField.all.map fun field => (field.label, c.valuesOf field)).map Prod.fst).Nodup := by
    rw [List.map_map]
    exact (by decide : (ListField.all.map ListField.label).Nodup)
  have hall : ∀ field : ListField, field ∈ ListField.all := by
    intro field
    cases field <;> decide
  unfold listValues
  rw [List.mem_filter, (Ascending.ofList_perm hlabels).mem_iff, List.mem_map]
  simp only [Prod.mk.injEq, hall, true_and, Bool.not_eq_true', List.isEmpty_eq_false_iff, exists_and_right.symm, and_assoc]

theorem pairwise_listValues (c : Compendium) : c.listValues.Pairwise fun a b => a.1 < b.1 :=
  ((Ascending.sorted_ofList _).filter _).imp compare_lt_iff_lt.mp

theorem mem_listValues_iff :
    (label, values) ∈ c.listValues ↔ ∃ field : ListField, field.label = label ∧
      (∃ e ∈ c.entities, field.get e ≠ []) ∧ values.Pairwise (· < ·) ∧
      ∀ value, value ∈ values ↔ ∃ e ∈ c.entities, value ∈ field.get e := by
  rw [mem_listValues]
  apply exists_congr
  intro field
  apply and_congr_right
  intro _
  rw [← valuesOf_ne_nil]
  constructor
  · rintro ⟨rfl, hne⟩
    exact ⟨hne, pairwise_valuesOf c field, fun _ => mem_valuesOf⟩
  · rintro ⟨hne, hascending, hvalues⟩
    have heq : c.valuesOf field = values := by
      apply (pairwise_valuesOf c field).eq_of_mem_iff hascending
      intro value
      rw [mem_valuesOf, hvalues]
    exact ⟨heq, heq ▸ hne⟩

/-! ## The same entries -/

/-- Both hold the same entries, each under a key of its own. -/
structure Rearranged (c c' : Compendium) : Prop where
  perm : c'.entries.Perm c.entries
  nodup : (c.entries.map Prod.fst).Nodup

namespace Rearranged

variable (h : Rearranged c c')
include h

theorem nodup_right : (c'.entries.map Prod.fst).Nodup := (h.perm.map Prod.fst).nodup_iff.mpr h.nodup

theorem entities : c'.entities.Perm c.entities := h.perm.map Prod.snd

/-! ## Lookups -/

theorem get?_eq (key : String) : c'.get? key = c.get? key := by
  apply Option.ext
  intro e
  rw [get?_eq_some h.nodup, get?_eq_some h.nodup_right]
  exact h.perm.mem_iff

theorem sharing_eq (name : String) : c'.sharing name = c.sharing name := h.entities.countP_eq _

theorem find_eq (query : String) : c'.find query = c.find query := by
  have hsharing := h.sharing_eq (Name.normalize query)
  -- What a query is answered by is how many entities have its name, and which one if it is one.
  obtain hnone | hone | hmany : c.sharing (Name.normalize query) = 0 ∨ c.sharing (Name.normalize query) = 1 ∨
      2 ≤ c.sharing (Name.normalize query) := by omega
  · rw [find_eq_notFound hnone, find_eq_notFound (hsharing.trans hnone)]
  · obtain ⟨e, he, hname⟩ := List.countP_pos_iff.mp (show 0 < c.sharing (Name.normalize query) by omega)
    have hname := of_decide_eq_true hname
    rw [find_eq_ok he hname hone, find_eq_ok (h.entities.mem_iff.mpr he) hname (hsharing.trans hone)]
  · rw [find_eq_ambiguous hmany, find_eq_ambiguous (hsharing ▸ hmany), hsharing]

theorem ambiguousNames_eq : c'.ambiguousNames = c.ambiguousNames := by
  apply (sorted_ambiguousNames c').eq_of_mem_iff (sorted_ambiguousNames c)
  rintro ⟨name, n⟩
  rw [mem_ambiguousNames, mem_ambiguousNames, h.sharing_eq]

/-! ## Lists -/

theorem valuesOf_eq (field : ListField) : c'.valuesOf field = c.valuesOf field := by
  apply (pairwise_valuesOf c' field).eq_of_mem_iff (pairwise_valuesOf c field)
  intro value
  rw [mem_valuesOf, mem_valuesOf]
  simp only [h.entities.mem_iff]

theorem listValues_eq : c'.listValues = c.listValues := by
  unfold listValues
  simp only [h.valuesOf_eq]

theorem filter_perm (filters : List Filter) : (c'.filter filters).Perm (c.filter filters) :=
  h.entities.filter _

theorem renderSection_eq (hnames : (c.entities.map Entity.name).Nodup) (renderer : Renderer) (options : RenderOptions)
    (includeDeprecated : Bool) :
    c'.renderSection renderer options includeDeprecated = c.renderSection renderer options includeDeprecated := by
  have hlevel : ∀ a ∈ c.entities, ∀ b ∈ c.entities, a.name ≤ b.name → b.name ≤ a.name → a = b := by
    intro a ha b hb hab hba
    exact List.inj_on_of_nodup_map hnames ha hb (le_antisymm hab hba)
  have hshown := h.entities.filter fun e => includeDeprecated || !e.hasMetaTag "deprecated"
  unfold renderSection byName
  dsimp only
  rw [Ascending.mergeSort_perm_eq _ _ _ hshown]
  · intro a b c hab hbc
    simp only [decide_eq_true_eq] at hab hbc ⊢
    exact le_trans hab hbc
  · intro a b
    simpa using le_total a.name b.name
  · intro a ha b hb hab hba
    rw [hshown.mem_iff, List.mem_filter] at ha hb
    exact hlevel a ha.1 b hb.1 (of_decide_eq_true hab) (of_decide_eq_true hba)

end Rearranged

/-! ## Any order will do -/

/-- The compendium of entries with different keys. -/
def filled (entries : List (String × Entity)) : Compendium := ⟨entries.map fun (key, e) => (key, prepared e)⟩

section Filled

variable {entries others : List (String × Entity)} (hnodup : (entries.map Prod.fst).Nodup)
include hnodup

theorem insertAll_empty : ({} : Compendium).insertAll entries = (filled entries, none) :=
  insertAll_of_lacks (fun _ _ => List.not_mem_nil) hnodup

theorem indexed_filled : (filled entries).Indexed := by
  have hreach := Reachable.empty.insertAll entries
  rw [insertAll_empty hnodup] at hreach
  exact hreach.indexed

theorem rearranged_filled (h : others.Perm entries) : Rearranged (filled entries) (filled others) := by
  refine ⟨h.map _, ?_⟩
  unfold filled
  rw [List.map_map]
  exact hnodup

end Filled

/--
Entries with different keys may be added in any order: all answers are the same, filters pick the same entities, and
where no two have one name the rendered text is the same too.
-/
theorem queries_of_perm {entries others : List (String × Entity)} (hnodup : (entries.map Prod.fst).Nodup)
    (hperm : others.Perm entries) :
    ∃ c c' : Compendium, ({} : Compendium).insertAll entries = (c, none) ∧
      ({} : Compendium).insertAll others = (c', none) ∧ c.Indexed ∧ c'.Indexed ∧
      (∀ key, c'.get? key = c.get? key) ∧
      (∀ query, c'.find query = c.find query) ∧
      c'.ambiguousNames = c.ambiguousNames ∧
      c'.listValues = c.listValues ∧
      (c.listValues.Pairwise fun a b => a.1 < b.1) ∧
      (∀ label values, (label, values) ∈ c.listValues ↔ ∃ field : ListField, field.label = label ∧
        (∃ e ∈ c.entities, field.get e ≠ []) ∧ values.Pairwise (· < ·) ∧
        ∀ value, value ∈ values ↔ ∃ e ∈ c.entities, value ∈ field.get e) ∧
      (∀ filters, (c'.filter filters).Perm (c.filter filters)) ∧
      ((entries.map fun (_, e) => e.name).Nodup → ∀ renderer options includeDeprecated,
        c'.renderSection renderer options includeDeprecated = c.renderSection renderer options includeDeprecated) := by
  have hnodup' : (others.map Prod.fst).Nodup := (hperm.map Prod.fst).nodup_iff.mpr hnodup
  have h := rearranged_filled hnodup hperm
  refine ⟨filled entries, filled others, insertAll_empty hnodup, insertAll_empty hnodup', indexed_filled hnodup,
    indexed_filled hnodup', h.get?_eq, h.find_eq, h.ambiguousNames_eq, h.listValues_eq, pairwise_listValues _,
    fun _ _ => mem_listValues_iff, h.filter_perm, fun hnames => h.renderSection_eq ?_⟩
  unfold Compendium.entities filled
  rw [List.map_map, List.map_map]
  exact hnames

def herd : List (String × Entity) :=
  [("rat_b", { name := "rat", tags := ["small", "grey"] }), ("owl", { name := "Owl", tags := ["grey"] }),
    ("rat_a", { name := "Rat", metaTags := ["deprecated"] })]

theorem queries_of_perm_herd :
    ∃ c c' : Compendium, ({} : Compendium).insertAll herd = (c, none) ∧
      ({} : Compendium).insertAll herd.reverse = (c', none) ∧ c'.entries ≠ c.entries ∧ c'.index ≠ c.index ∧
      c'.get? "owl" = c.get? "owl" ∧ c'.find "RAT" = c.find "RAT" ∧ c.find "RAT" = .error (.ambiguous "rat" 2) ∧
      c'.ambiguousNames = c.ambiguousNames ∧ c.ambiguousNames = [("rat", 2)] ∧
      c'.listValues = c.listValues ∧ ("tags", ["grey", "small"]) ∈ c.listValues ∧
      (c'.filter [.containsAll "tags" ["grey"]]).Perm (c.filter [.containsAll "tags" ["grey"]]) ∧
      ∀ renderer, c'.renderSection renderer {} false = c.renderSection renderer {} false := by
  obtain ⟨c, c', hc, hc', -, -, hget, hfind, hambiguous, hvalues, -, hlisted, hfilter, hrender⟩ :=
    queries_of_perm (by decide) (List.reverse_perm herd)
  rw [insertAll_empty (by decide)] at hc hc'
  cases hc
  cases hc'
  have hgrey : ∀ value, value ∈ ["grey", "small"] ↔ ∃ e ∈ (filled herd).entities, value ∈ ListField.tags.get e := by
    intro value
    simpa [filled, herd, entities, prepared, ListField.get] using or_comm
  have htags := (hlisted "tags" ["grey", "small"]).mpr ⟨.tags, rfl, by decide, by decide, hgrey⟩
  exact ⟨_, _, rfl, rfl, by decide, by decide, hget _, hfind _, find_eq_ambiguous (by decide), hambiguous, by decide,
    hvalues, htags, hfilter _, fun renderer => hrender (by decide) renderer {} false⟩

end Compendium

end Tabletop
