import Tabletop.Compendium.Loading
import Tabletop.Proofs.Ascending
import Tabletop.Proofs.Ron.Order

/-!
# Two loadings of one content

Content is accepted or refused whatever order the outcomes of its tables are visited in, and what is loaded is the
same but for the order of outcomes under one key. Where every outcome has a key of its own there is no such order
to see.
-/

namespace Tabletop

/-! ## Ascending lists -/

namespace Ascending

variable {κ α β : Type} [Ord κ] {R : α → β → Prop} {l : List (κ × α)} {l' : List (κ × β)}

theorem forall₂_insert (h : List.Forall₂ (fun a b => a.1 = b.1 ∧ R a.2 b.2) l l') (key : κ) {value : α} {value' : β}
    (hvalue : R value value') :
    List.Forall₂ (fun a b => a.1 = b.1 ∧ R a.2 b.2) (insert key value l) (insert key value' l') := by
  induction h with
  | nil => exact .cons ⟨rfl, hvalue⟩ .nil
  | @cons first first' rest rest' hfirst hrest ih =>
    obtain ⟨k, v⟩ := first
    obtain ⟨k', v'⟩ := first'
    obtain ⟨rfl, hv⟩ := hfirst
    unfold insert
    cases compare key k with
    | lt => exact .cons ⟨rfl, hvalue⟩ (.cons ⟨rfl, hv⟩ hrest)
    | eq => exact .cons ⟨rfl, hvalue⟩ hrest
    | gt => exact .cons ⟨rfl, hv⟩ ih

theorem forall₂_ofList (h : List.Forall₂ (fun a b => a.1 = b.1 ∧ R a.2 b.2) l l') :
    List.Forall₂ (fun a b => a.1 = b.1 ∧ R a.2 b.2) (ofList l) (ofList l') := by
  unfold ofList
  have hacc : List.Forall₂ (fun (a : κ × α) (b : κ × β) => a.1 = b.1 ∧ R a.2 b.2) [] [] := .nil
  revert hacc
  generalize ([] : List (κ × α)) = acc, ([] : List (κ × β)) = acc'
  intro hacc
  induction h generalizing acc acc' with
  | nil => exact hacc
  | @cons first first' rest rest' hfirst _ ih =>
    obtain ⟨k, v⟩ := first
    obtain ⟨k', v'⟩ := first'
    obtain ⟨rfl, hv⟩ := hfirst
    exact ih _ _ (forall₂_insert hacc k hv)

end Ascending

namespace Compendium

variable {c d : Compendium} {entries others : List (String × Entity)}

/-- Compendiums of the same entries, but for the order of the outcomes of their tables. -/
def Alike (c d : Compendium) : Prop := List.Forall₂ Ron.SameEntry c.entries d.entries

/-- No table has two outcomes under one key. -/
def Keyed (c : Compendium) : Prop := ∀ e ∈ c.entities, ∀ t ∈ e.table, (t.outcomes.map Prod.fst).Nodup

theorem Alike.eq (h : c.Alike d) (hkeyed : c.Keyed) : d = c := by
  obtain ⟨entries⟩ := c
  obtain ⟨others⟩ := d
  unfold Alike at h
  unfold Keyed entities at hkeyed
  dsimp only at h hkeyed
  congr 1
  induction h with
  | nil => rfl
  | @cons first first' rest rest' hfirst _ ih =>
    obtain ⟨key, e⟩ := first
    obtain ⟨key', f⟩ := first'
    obtain ⟨rfl, halike⟩ := hfirst
    rw [List.map_cons, List.forall_mem_cons] at hkeyed
    exact congrArg₂ List.cons (congrArg (Prod.mk key) (halike.eq hkeyed.1)) (ih hkeyed.2)

/-! ## Adding -/

theorem alike_prepared {e f : Entity} (h : e.Alike f) : (prepared e).Alike (prepared f) := by
  have hothers : prepared { e with table := none } = prepared { f with table := none } := congrArg prepared h.others
  refine ⟨hothers, ?_⟩
  have htable := h.table
  unfold prepared
  generalize e.table = t, f.table = u at htable
  cases htable with
  | some halike => exact .some halike.expand
  | none => exact .none

theorem Alike.isSome_get? (h : c.Alike d) (key : String) : (c.get? key).isSome = (d.get? key).isSome := by
  have hkeys : c.entries.map Prod.fst = d.entries.map Prod.fst := by
    refine List.forall₂_eq_eq_eq ▸ ?_
    rw [List.forall₂_map_left_iff, List.forall₂_map_right_iff]
    exact h.imp fun _ _ hsame => hsame.1
  unfold get?
  rw [Bool.eq_iff_iff, Ascending.isSome_lookup, Ascending.isSome_lookup, hkeys]

theorem Alike.insertAll (h : c.Alike d) (hentries : List.Forall₂ Ron.SameEntry entries others) :
    (c.insertAll entries).1.Alike (d.insertAll others).1 ∧ (c.insertAll entries).2 = (d.insertAll others).2 := by
  induction hentries generalizing c d with
  | nil => exact ⟨h, rfl⟩
  | @cons first first' rest rest' hfirst _ ih =>
    obtain ⟨key, e⟩ := first
    obtain ⟨key', f⟩ := first'
    obtain ⟨rfl, halike⟩ := hfirst
    unfold Compendium.insertAll insert
    rw [h.isSome_get? key]
    cases (d.get? key).isSome with
    | true => exact ⟨h, rfl⟩
    | false => exact ih (List.rel_append h (.cons ⟨rfl, alike_prepared halike⟩ .nil))

/-! ## Loading -/

/-- Errors of one kind, which name the same key unless it is a bad one. -/
inductive LoadError.Alike : LoadError → LoadError → Prop where
  | unreadable : Alike .unreadable .unreadable
  | content {fault other : Ron.Fault} : fault.Alike other → Alike (.content fault) (.content other)
  | duplicateKey {key : String} : Alike (.duplicateKey key) (.duplicateKey key)

/-- Two loadings end in compendiums that are alike, or in errors that are. -/
abbrev Agrees (first second : Except LoadError Compendium) : Prop := Agree LoadError.Alike Alike first second

theorem Agrees.eq_ok {first second : Except LoadError Compendium} (h : Agrees first second) (hfirst : first = .ok c)
    (hkeyed : c.Keyed) : second = .ok c := by
  cases h with
  | ok halike =>
    cases hfirst
    rw [halike.eq hkeyed]
  | error => cases hfirst

theorem Alike.addWritten (h : c.Alike d) (hentries : List.Forall₂ Ron.SameEntry entries others) :
    Agrees (c.addWritten entries) (d.addWritten others) := by
  obtain ⟨hadded, hrefused⟩ := h.insertAll (Ascending.forall₂_ofList hentries)
  unfold Compendium.addWritten insertEach
  generalize c.insertAll (Ascending.ofList entries) = first at hadded hrefused
  generalize d.insertAll (Ascending.ofList others) = second at hadded hrefused
  obtain ⟨c', refused⟩ := first
  obtain ⟨d', refused'⟩ := second
  obtain rfl : refused = refused' := hrefused
  cases refused with
  | none => exact .ok hadded
  | some duplicate => exact .error .duplicateKey

theorem Alike.extend (h : c.Alike d) (text : String) (order other : Ron.Order) :
    Agrees (c.extend text order) (d.extend text other) := by
  have hread := Ron.agree_readContent text order other
  unfold Compendium.extend
  generalize Ron.readContent text order = first, Ron.readContent text other = second at hread
  cases hread with
  | ok hentries => exact h.addWritten hentries
  | error hfault => exact .error (.content hfault)

theorem Alike.extendFile (h : c.Alike d) (file : Option String) (order other : Ron.Order) :
    Agrees (c.extendFile file order) (d.extendFile file other) := by
  cases file with
  | none => exact .error .unreadable
  | some text => exact h.extend text order other

theorem alike_empty : Alike {} {} := .nil

theorem exists_alike_of_ofText {text : String} {order : Ron.Order} (h : ofText text order = .ok c)
    (other : Ron.Order) : ∃ d, ofText text other = .ok d ∧ c.Alike d := by
  have hagree : Agrees (ofText text order) (ofText text other) := alike_empty.extend text order other
  rw [h] at hagree
  generalize hother : ofText text other = result at hagree
  cases hagree with
  | @ok _ d halike => exact ⟨d, rfl, halike⟩

end Compendium

end Tabletop
