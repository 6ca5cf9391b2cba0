import Mathlib.Data.Option.Defs
import Tabletop.Proofs.Table.Expand
import Tabletop.Ron.Content

/-!
# Two readings of one text

Readings may visit the outcomes of a table in different orders. They end in the same place of the text, and read the
same but for the order of the outcomes that a table has under one key.
-/

namespace Tabletop

/-! ## Tables and entities -/

/-- Tables of the same outcomes, which may have come in different orders. -/
inductive Table.Alike : Table → Table → Prop where
  | ofOutcomes {roll : Option String} {outcomes others : List (Table.Key × String)} (h : outcomes.Perm others) :
      Alike (.ofOutcomes roll outcomes) (.ofOutcomes roll others)

namespace Table

variable {t u : Table}

theorem Alike.expand (h : t.Alike u) : t.expand.Alike u.expand := by
  obtain ⟨hperm⟩ := h
  unfold Table.ofOutcomes
  rw [expand_expand, expand_expand]
  exact .ofOutcomes hperm

theorem Alike.eq (h : t.Alike u) (hnodup : (t.outcomes.map Prod.fst).Nodup) : u = t := by
  obtain @⟨roll, outcomes, others, hperm⟩ := h
  have hsorted := List.mergeSort_perm outcomes fun a b => a.1.le b.1
  exact ofOutcomes_perm roll ((hsorted.map Prod.fst).nodup_iff.mp hnodup) hperm.symm

/-- Of outcomes under one key the one that came last is what a roll gives. -/
example : ∃ t u : Table, t.Alike u ∧ t.coverage = [(1, "bats")] ∧ u.coverage = [(1, "rats")] := by
  have hsorted : ∀ a b, [(⟨1, 1⟩, a), (⟨1, 1⟩, b)].mergeSort (fun a b : Key × String => a.1.le b.1) =
      [(⟨1, 1⟩, a), (⟨1, 1⟩, b)] := fun a b => List.mergeSort_of_pairwise (by simp [Key.le])
  refine ⟨ofOutcomes none _, ofOutcomes none _, .ofOutcomes (List.Perm.swap (⟨1, 1⟩, "bats") (⟨1, 1⟩, "rats") []), ?_, ?_⟩
  · rw [ofOutcomes, hsorted]
    decide
  · rw [ofOutcomes, hsorted]
    decide

end Table

/-- Entities that are the same but for the order of outcomes. -/
structure Entity.Alike (e f : Entity) : Prop where
  others : { e with table := none } = { f with table := none }
  table : Option.Rel Table.Alike e.table f.table

theorem Entity.Alike.eq {e f : Entity} (h : e.Alike f) (hnodup : ∀ t ∈ e.table, (t.outcomes.map Prod.fst).Nodup) :
    f = e := by
  obtain ⟨hothers, htable⟩ := h
  have hsame : f.table = e.table := by
    generalize e.table = t, f.table = u at htable hnodup
    cases htable with
    | some halike => exact congrArg some (halike.eq (hnodup _ rfl))
    | none => rfl
  calc
    f = { ({ f with table := none } : Entity) with table := f.table } := rfl
    _ = { ({ e with table := none } : Entity) with table := e.table } := by rw [← hothers, hsame]
    _ = e := rfl

theorem Entity.Alike.setText {e f : Entity} (h : e.Alike f) (field : TextField) (text : String) :
    (field.set text e).Alike (field.set text f) := by
  have hwithout : ∀ g : Entity, { field.set text g with table := none } = field.set text { g with table := none } := by
    intro g
    cases field <;> rfl
  constructor
  · rw [hwithout, hwithout, h.others]
  · cases field <;> exact h.table

theorem Entity.Alike.setList {e f : Entity} (h : e.Alike f) (field : ListField) (texts : List String) :
    (field.set texts e).Alike (field.set texts f) := by
  have hwithout : ∀ g : Entity, { field.set texts g with table := none } = field.set texts { g with table := none } := by
    intro g
    cases field <;> rfl
  constructor
  · rw [hwithout, hwithout, h.others]
  · cases field <;> exact h.table

/-! ## Results -/

/-- Results that agree: two values that are alike, or two faults. -/
inductive Agree {ε α β : Type} (E : ε → ε → Prop) (R : α → β → Prop) : Except ε α → Except ε β → Prop where
  | ok {a : α} {b : β} (h : R a b) : Agree E R (.ok a) (.ok b)
  | error {e e' : ε} (h : E e e') : Agree E R (.error e) (.error e')

namespace Agree

variable {ε α β γ δ : Type} {E : ε → ε → Prop} {R : α → β → Prop} {S : γ → δ → Prop}

protected theorem refl {R : α → α → Prop} (herror : ∀ e, E e e) (hok : ∀ a, R a a) (result : Except ε α) :
    Agree E R result result := by
  cases result with
  | ok a => exact .ok (hok a)
  | error e => exact .error (herror e)

theorem bind {first : Except ε α} {second : Except ε β} {f : α → Except ε γ} {g : β → Except ε δ}
    (h : Agree E R first second) (hnext : ∀ a b, R a b → Agree E S (f a) (g b)) :
    Agree E S (first >>= f) (second >>= g) := by
  cases h with
  | ok h => exact hnext _ _ h
  | error h => exact .error h

theorem map {first : Except ε α} {second : Except ε β} {f : α → γ} {g : β → δ} (h : Agree E R first second)
    (hmap : ∀ a b, R a b → S (f a) (g b)) : Agree E S (first.map f) (second.map g) := by
  cases h with
  | ok h => exact .ok (hmap _ _ h)
  | error h => exact .error h

end Agree

namespace Ron

/-- Faults of one kind. Of several bad keys each reading may come to another one first. -/
inductive Fault.Alike : Fault → Fault → Prop where
  | malformed : Alike .malformed .malformed
  | invalidKey {key other : String} : Alike (.invalidKey key) (.invalidKey other)

theorem Fault.alike_refl (fault : Fault) : fault.Alike fault := by
  cases fault with
  | malformed => exact .malformed
  | invalidKey key => exact .invalidKey

/-- Entries under one key that are alike. -/
def SameEntry (a b : String × Entity) : Prop := a.1 = b.1 ∧ a.2.Alike b.2

/-! ## Readers -/

namespace Reader

variable {α β γ δ σ τ : Type} {R : α → β → Prop} {S : γ → δ → Prop} {I : σ → τ → Prop} {settings : Settings}

/-- From every place of a text both readers go on to the same place, with results that agree. -/
def Alike (R : α → β → Prop) (r : Reader α) (r' : Reader β) : Prop :=
  ∀ cs, Agree Fault.Alike (fun p q => R p.1 q.1 ∧ p.2 = q.2) (r.run cs) (r'.run cs)

theorem alike_refl {R : α → α → Prop} (hrefl : ∀ a, R a a) (r : Reader α) : Alike R r r :=
  fun cs => .refl Fault.alike_refl (fun p => ⟨hrefl p.1, rfl⟩) (r.run cs)

theorem alike_pure {a : α} {b : β} (h : R a b) : Alike R (pure a : Reader α) (pure b) := fun _ => .ok ⟨h, rfl⟩

theorem alike_bind {r : Reader α} {r' : Reader β} {f : α → Reader γ} {f' : β → Reader δ} (hr : Alike R r r')
    (hf : ∀ a b, R a b → Alike S (f a) (f' b)) : Alike S (r >>= f) (r' >>= f') := by
  intro cs
  rw [StateT.run_bind, StateT.run_bind]
  refine (hr cs).bind ?_
  rintro ⟨a, rest⟩ ⟨b, _⟩ ⟨hab, rfl⟩
  exact hf a b hab rest

theorem alike_bind_left (r : Reader α) {f : α → Reader γ} {f' : α → Reader δ} (hf : ∀ a, Alike S (f a) (f' a)) :
    Alike S (r >>= f) (r >>= f') := by
  refine alike_bind (alike_refl (fun _ => rfl) r) ?_
  rintro a _ rfl
  exact hf a

theorem alike_foldUntil (close : String) {item : σ → Reader σ} {item' : τ → Reader τ}
    (hitem : ∀ a b, I a b → Alike I (item a) (item' b)) (tries : Nat) {start : σ} {start' : τ}
    (hstart : I start start') : Alike I (foldUntil close item tries start) (foldUntil close item' tries start') := by
  induction tries generalizing start start' with
  | zero => exact fun _ => .error .malformed
  | succ tries ih =>
    unfold foldUntil
    refine alike_bind_left _ fun _ => alike_bind_left _ fun closed => ?_
    cases closed with
    | true => exact alike_pure hstart
    | false =>
      refine alike_bind (hitem _ _ hstart) fun a b hab => alike_bind_left _ fun comma => ?_
      cases comma with
      | true => exact ih hab
      | false => exact alike_bind_left _ fun _ => alike_pure hab

theorem alike_fold (opening close : String) {item : σ → Reader σ} {item' : τ → Reader τ}
    (hitem : ∀ a b, I a b → Alike I (item a) (item' b)) {start : σ} {start' : τ} (hstart : I start start') :
    Alike I (fold opening close item start) (fold opening close item' start') := by
  unfold fold
  exact alike_bind_left _ fun _ cs => alike_foldUntil close hitem _ hstart cs

theorem alike_items (opening close : String) {item : Reader α} {item' : Reader β} (hitem : Alike R item item') :
    Alike (List.Forall₂ R) (items opening close item) (items opening close item') := by
  unfold items
  refine alike_bind (R := List.Forall₂ R) (alike_fold opening close (fun a b hab => ?_) .nil) fun a b hab => ?_
  · exact alike_bind hitem fun _ _ hread => alike_pure (.cons hread hab)
  · exact alike_pure (List.rel_reverse hab)

theorem alike_struct (name : String) {field : String → σ → Reader σ} {field' : String → τ → Reader τ}
    (hfield : ∀ label a b, I a b → Alike I (field label a) (field' label b)) {start : σ} {start' : τ}
    (hstart : I start start') : Alike I (struct name field start) (struct name field' start') := by
  unfold struct
  refine alike_bind_left _ fun _ => alike_fold "(" ")" (fun a b hab => ?_) hstart
  exact alike_bind_left _ fun label => alike_bind_left _ fun _ => hfield label a b hab

theorem alike_pair {κ : Type} (key : Reader κ) {value : Reader α} {value' : Reader β} (hvalue : Alike R value value') :
    Alike (fun a b => a.1 = b.1 ∧ R a.2 b.2) (pair key value) (pair key value') := by
  unfold pair
  refine alike_bind_left _ fun k => alike_bind_left _ fun _ => ?_
  exact alike_bind hvalue fun _ _ hread => alike_pure ⟨rfl, hread⟩

theorem alike_optional {value : Reader α} {value' : Reader β} (hvalue : Alike R value value') :
    Alike (Option.Rel R) (optional settings value) (optional settings value') := by
  unfold optional
  refine alike_bind_left _ fun absent => ?_
  cases absent with
  | true => exact alike_pure .none
  | false =>
    refine alike_bind_left _ fun opened => ?_
    cases opened with
    | true =>
      refine alike_bind_left _ fun _ => alike_bind hvalue fun _ _ hread => ?_
      exact alike_bind_left _ fun _ => alike_bind_left _ fun _ => alike_pure (.some hread)
    | false =>
      simp only [Bool.false_eq_true, if_false]
      split
      · exact alike_bind hvalue fun _ _ hread => alike_pure (.some hread)
      · exact fun _ => .error .malformed

/-! ## Content -/

variable {order other : Order} {depth : Nat}

theorem agree_build (draft : TableDraft) {visit visit' : List (String × String) → List (String × String)}
    (hvisit : ∀ outcomes, (visit outcomes).Perm (visit' outcomes)) :
    Agree Fault.Alike Table.Alike (draft.build visit) (draft.build visit') := by
  unfold TableDraft.build
  cases draft.outcomes with
  | none => exact .error .malformed
  | some outcomes =>
    have hperm := hvisit (Ascending.ofList outcomes)
    dsimp only
    cases hread : Table.readOutcomes (visit (Ascending.ofList outcomes)) with
    | ok first =>
      obtain ⟨second, hread', hsame⟩ := Table.readOutcomes_perm hperm hread
      rw [Table.ofPairs_eq_ok.mpr ⟨_, hread, rfl⟩, Table.ofPairs_eq_ok.mpr ⟨_, hread', rfl⟩]
      exact .ok (.ofOutcomes hsame)
    | error e =>
      cases hread' : Table.readOutcomes (visit' (Ascending.ofList outcomes)) with
      | ok second =>
        obtain ⟨first, hread'', -⟩ := Table.readOutcomes_perm hperm.symm hread'
        rw [hread] at hread''
        cases hread''
      | error e' =>
        obtain ⟨key, rfl, -⟩ := Table.invalidKey_of_readOutcomes hread
        obtain ⟨key', rfl, -⟩ := Table.invalidKey_of_readOutcomes hread'
        rw [Table.ofPairs_of_error hread, Table.ofPairs_of_error hread']
        exact .error .invalidKey

theorem alike_table : Alike Table.Alike (table settings order depth) (table settings other depth) := by
  unfold table
  refine alike_bind_left _ fun draft cs => ?_
  refine (agree_build draft fun outcomes => ?_).map fun _ _ h => ⟨h, rfl⟩
  exact (order.perm _ _).trans (other.perm _ _).symm

/-- Drafts of entities that are alike, in which the same fields have been read. -/
def EntityDraft.Alike (a b : EntityDraft) : Prop := a.entity.Alike b.entity ∧ a.seen = b.seen

theorem alike_entityField (label : String) {a b : EntityDraft} (h : a.Alike b) :
    Alike EntityDraft.Alike (entityField settings order depth label a) (entityField settings other depth label b) := by
  obtain ⟨halike, hseen⟩ := h
  unfold entityField
  rw [hseen]
  cases TextField.ofLabel? label with
  | some field =>
    exact alike_bind_left _ fun _ => alike_bind_left _ fun text => alike_pure ⟨halike.setText field text, rfl⟩
  | none =>
    cases ListField.ofLabel? label with
    | some field =>
      exact alike_bind_left _ fun _ => alike_bind_left _ fun texts => alike_pure ⟨halike.setList field texts, rfl⟩
    | none =>
      dsimp only
      split
      · refine alike_bind_left _ fun _ => alike_bind (alike_optional alike_table) fun _ _ htable => ?_
        exact alike_pure ⟨⟨halike.others, htable⟩, rfl⟩
      · exact alike_bind_left _ fun _ => alike_pure ⟨halike, hseen⟩

theorem alike_entity : Alike Entity.Alike (entity settings order depth) (entity settings other depth) := by
  unfold entity
  refine alike_bind (alike_struct "Entity" (fun label _ _ => alike_entityField label) ⟨⟨rfl, .none⟩, rfl⟩) ?_
  exact fun _ _ h => alike_pure h.1

theorem alike_entries :
    Alike (List.Forall₂ SameEntry) (entries settings order depth) (entries settings other depth) :=
  alike_items _ _ (alike_pair string alike_entity)

end Reader

/-! ## Whole texts -/

def Order.backwards : Order := ⟨fun _ outcomes => outcomes.reverse, fun _ outcomes => outcomes.reverse_perm⟩

theorem agree_read {α β : Type} {R : α → β → Prop} {settings : Settings} {value : Settings → Reader α}
    {value' : Settings → Reader β} (h : ∀ settings, Reader.Alike R (value settings) (value' settings))
    (text : String) : Agree Fault.Alike R (read settings value text) (read settings value' text) := by
  unfold read
  dsimp only
  have hdocument := Reader.alike_bind_left Reader.blanks fun _ =>
    Reader.alike_bind_left (Reader.attributes (text.toList.length + 1) settings) fun settings =>
      Reader.alike_bind (h settings) fun a b (hab : R a b) =>
        Reader.alike_bind_left Reader.blanks fun _ => Reader.alike_pure hab
  refine (hdocument text.toList).bind ?_
  rintro ⟨a, rest⟩ ⟨b, _⟩ ⟨hab, rfl⟩
  dsimp only
  split
  · exact .ok hab
  · exact .error .malformed

theorem agree_readContent (text : String) (order other : Order) :
    Agree Fault.Alike (List.Forall₂ SameEntry) (readContent text order) (readContent text other) :=
  agree_read (fun _ => Reader.alike_entries) text

end Ron

end Tabletop
