import Mathlib.Data.List.Forall2
import Mathlib.Data.List.Nodup
import Mathlib.Data.List.Perm.Basic
import Tabletop.Proofs.Ascending
import Tabletop.Proofs.Table.Key
import Tabletop.Ron.Content

/-!
# Tables written and read back

A table is built from its outcomes under written keys, in whatever order they come. Once built it is
settled: it is written under keys that can be read, and is built from them again.
-/

namespace Tabletop.Table

variable {t : Table} {roll : Option String} {pairs : List (String × String)}
  {outcomes sorted : List (Key × String)}

/-! ## The order of the outcomes -/

namespace Key

variable {a b c : Key}

theorem le_iff : a.le b = true ↔ a.first < b.first ∨ (a.first = b.first ∧ a.last ≤ b.last) := by
  simp [le]

theorem le_trans (hab : a.le b = true) (hbc : b.le c = true) : a.le c = true := by
  rw [le_iff] at *
  omega

theorem le_total (a b : Key) : (a.le b || b.le a) = true := by
  rw [Bool.or_eq_true, le_iff, le_iff]
  omega

theorem le_antisymm (hab : a.le b = true) (hba : b.le a = true) : a = b := by
  rw [le_iff] at *
  cases a
  cases b
  simp only [mk.injEq] at *
  omega

end Key

/-- The outcomes stand in the order of their keys. -/
def Ordered (outcomes : List (Key × String)) : Prop := outcomes.Pairwise fun a b => a.1.le b.1 = true

theorem ordered_mergeSort (outcomes : List (Key × String)) :
    Ordered (outcomes.mergeSort fun a b => a.1.le b.1) := by
  unfold Ordered
  apply List.pairwise_mergeSort
  · exact fun _ _ _ => Key.le_trans
  · exact fun a b => Key.le_total a.1 b.1

theorem mergeSort_eq (hperm : outcomes.Perm sorted) (hordered : Ordered sorted)
    (hnodup : (sorted.map Prod.fst).Nodup) : outcomes.mergeSort (fun a b => a.1.le b.1) = sorted := by
  have hlevel : ∀ a ∈ outcomes, ∀ b ∈ outcomes, a.1.le b.1 = true → b.1.le a.1 = true → a = b := by
    intro a ha b hb hab hba
    exact List.inj_on_of_nodup_map hnodup (hperm.mem_iff.mp ha) (hperm.mem_iff.mp hb) (Key.le_antisymm hab hba)
  calc
    outcomes.mergeSort (fun a b => a.1.le b.1) = sorted.mergeSort fun a b => a.1.le b.1 :=
      Ascending.mergeSort_perm_eq (fun _ _ _ => Key.le_trans) (fun a b => Key.le_total a.1 b.1) hlevel hperm
    _ = sorted := List.mergeSort_of_pairwise hordered

/-! ## Building -/

theorem ofOutcomes_eq (hperm : outcomes.Perm sorted) (hordered : Ordered sorted)
    (hnodup : (sorted.map Prod.fst).Nodup) : ofOutcomes roll outcomes = expand ⟨roll, sorted, []⟩ := by
  unfold ofOutcomes
  rw [mergeSort_eq hperm hordered hnodup]

theorem expand_expand (t : Table) : t.expand.expand = t.expand := by
  cases hroll : t.roll with
  | some roll => simp [expand, hroll]
  | none =>
    -- The roll of a table that names none is read off the coverage alone.
    have hdefault : t.expand.roll = defaultRoll? t.expand := by
      simp only [expand, hroll]
      rfl
    have hagain : t.expand.expand.roll = t.expand.roll.orElse fun _ => defaultRoll? t.expand := rfl
    have hsame : t.expand.expand.roll = t.expand.roll := by
      rw [hagain, ← hdefault]
      cases t.expand.roll <;> rfl
    exact congrArg (fun roll => (⟨roll, t.outcomes, coverageOf t.outcomes⟩ : Table)) hsame

/-- A key is read as it was written, and its outcome stays. -/
def ReadAs (pair : String × String) (entry : Key × String) : Prop :=
  Key.parse? pair.1 = some entry.1 ∧ pair.2 = entry.2

theorem readOutcomes_eq_ok : readOutcomes pairs = .ok outcomes ↔ List.Forall₂ ReadAs pairs outcomes := by
  induction pairs generalizing outcomes with
  | nil => simp [readOutcomes, eq_comm]
  | cons pair pairs ih =>
    obtain ⟨text, outcome⟩ := pair
    rw [readOutcomes, List.forall₂_cons_left_iff]
    simp only [← ih, ReadAs]
    cases Key.parse? text with
    | none => simp
    | some key =>
      cases readOutcomes pairs with
      | error e => simp [bind, Except.bind]
      | ok rest => simp [bind, Except.bind, pure, Except.pure, eq_comm]

theorem readOutcomes_eq (h : ∀ entry ∈ outcomes, entry.1.Readable) :
    readOutcomes (outcomes.map fun (key, outcome) => (key.text, outcome)) = .ok outcomes := by
  rw [readOutcomes_eq_ok, List.forall₂_map_left_iff, List.forall₂_same]
  exact fun entry hentry => ⟨(h entry hentry).parse?_text, rfl⟩

theorem mem_readOutcomes (h : readOutcomes pairs = .ok outcomes) {key : Key} {outcome : String} :
    (key, outcome) ∈ outcomes ↔ ∃ text, (text, outcome) ∈ pairs ∧ Key.parse? text = some key := by
  have hread := readOutcomes_eq_ok.mp h
  clear h
  induction hread with
  | nil => simp
  | @cons pair entry _ _ hfirst _ ih =>
    obtain ⟨text, first⟩ := pair
    obtain ⟨read, first'⟩ := entry
    obtain ⟨hkey, rfl⟩ := hfirst
    simp only [List.mem_cons, Prod.mk.injEq, ih]
    constructor
    · rintro (⟨rfl, rfl⟩ | ⟨text', hmem, htext'⟩)
      · exact ⟨text, .inl ⟨rfl, rfl⟩, hkey⟩
      · exact ⟨text', .inr hmem, htext'⟩
    · rintro ⟨text', ⟨rfl, rfl⟩ | hmem, htext'⟩
      · rw [hkey] at htext'
        exact .inl ⟨(Option.some.inj htext').symm, rfl⟩
      · exact .inr ⟨text', hmem, htext'⟩

theorem readOutcomes_perm {others : List (String × String)} (hperm : pairs.Perm others)
    (h : readOutcomes pairs = .ok outcomes) :
    ∃ more, readOutcomes others = .ok more ∧ outcomes.Perm more := by
  obtain ⟨more, hmore, hsame⟩ := List.perm_comp_forall₂ hperm.symm (readOutcomes_eq_ok.mp h)
  exact ⟨more, readOutcomes_eq_ok.mpr hmore, hsame.symm⟩

theorem invalidKey_of_readOutcomes {e : Error} (h : readOutcomes pairs = .error e) :
    ∃ key, e = .invalidKey key ∧ key ∈ pairs.map Prod.fst ∧ Key.parse? key = none := by
  induction pairs with
  | nil => cases h
  | cons pair pairs ih =>
    obtain ⟨text, outcome⟩ := pair
    rw [readOutcomes] at h
    cases hkey : Key.parse? text with
    | none =>
      rw [hkey] at h
      cases h
      exact ⟨text, rfl, by simp, hkey⟩
    | some key =>
      cases hrest : readOutcomes pairs with
      | error e =>
        rw [hkey, hrest] at h
        cases h
        obtain ⟨bad, rfl, hmem, hbad⟩ := ih hrest
        exact ⟨bad, rfl, List.mem_cons_of_mem _ hmem, hbad⟩
      | ok rest =>
        rw [hkey, hrest] at h
        cases h

theorem readable_of_readOutcomes (h : readOutcomes pairs = .ok outcomes) :
    ∀ entry ∈ outcomes, entry.1.Readable := by
  intro entry hentry
  obtain ⟨text, -, hkey⟩ := (mem_readOutcomes h).mp hentry
  exact Key.readable_of_parse? hkey

theorem exists_readOutcomes (h : ∀ pair ∈ pairs, ∃ key, Key.parse? pair.1 = some key) :
    ∃ outcomes, readOutcomes pairs = .ok outcomes := by
  induction pairs with
  | nil => exact ⟨[], rfl⟩
  | cons pair pairs ih =>
    obtain ⟨⟨key, hkey⟩, hpairs⟩ := List.forall_mem_cons.mp h
    obtain ⟨rest, hrest⟩ := ih hpairs
    refine ⟨(key, pair.2) :: rest, ?_⟩
    rw [readOutcomes, hkey, hrest]
    rfl

theorem ofPairs_eq_ok :
    ofPairs roll pairs = .ok t ↔ ∃ outcomes, readOutcomes pairs = .ok outcomes ∧ ofOutcomes roll outcomes = t := by
  unfold ofPairs
  cases readOutcomes pairs with
  | error e => simp [bind, Except.bind]
  | ok outcomes => simp [bind, Except.bind, pure, Except.pure]

theorem ofPairs_of_error {e : Error} (h : readOutcomes pairs = .error e) : ofPairs roll pairs = .error e := by
  unfold ofPairs
  rw [h]
  rfl

/-- What every table is that was built from written keys. -/
structure Settled (t : Table) : Prop where
  expand_eq : t.expand = t
  readable : ∀ entry ∈ t.outcomes, entry.1.Readable
  ordered : Ordered t.outcomes

theorem settled_of_ofPairs (h : ofPairs roll pairs = .ok t) : t.Settled := by
  obtain ⟨outcomes, hread, rfl⟩ := ofPairs_eq_ok.mp h
  constructor
  · exact expand_expand _
  · intro entry hentry
    exact readable_of_readOutcomes hread entry ((List.mergeSort_perm _ _).mem_iff.mp hentry)
  · exact ordered_mergeSort outcomes

theorem exists_ofPairs_of_build {draft : Ron.Reader.TableDraft}
    {visit : List (String × String) → List (String × String)} (h : draft.build visit = .ok t) :
    ∃ roll pairs, ofPairs roll pairs = .ok t := by
  unfold Ron.Reader.TableDraft.build at h
  split at h
  · cases h
  · split at h
    next hpairs =>
      cases h
      exact ⟨_, _, hpairs⟩
    · cases h
    · cases h

theorem exists_ofPairs_of_reader {settings : Ron.Settings} {order : Ron.Order} {depth : Nat} {cs rest : List Char}
    (h : (Ron.Reader.table settings order depth).run cs = .ok (t, rest)) :
    ∃ roll pairs, ofPairs roll pairs = .ok t := by
  unfold Ron.Reader.table at h
  rw [StateT.run_bind] at h
  cases hdraft : (Ron.Reader.struct "RawTable" (Ron.Reader.tableField settings (depth - 1)) {}).run cs with
  | error fault =>
    rw [hdraft] at h
    cases h
  | ok read =>
    obtain ⟨draft, left⟩ := read
    rw [hdraft] at h
    change (draft.build _).map (·, left) = _ at h
    cases hbuild : draft.build (order.visit left.length) with
    | error fault =>
      rw [hbuild] at h
      cases h
    | ok built =>
      rw [hbuild] at h
      cases h
      exact exists_ofPairs_of_build hbuild

/-- The tables there are: built from written keys, read from content, or worked out once more. -/
inductive Made : Table → Prop where
  | ofPairs {t : Table} {roll : Option String} {pairs : List (String × String)}
      (h : ofPairs roll pairs = .ok t) : Made t
  | read {t : Table} {settings : Ron.Settings} {order : Ron.Order} {depth : Nat} {cs rest : List Char}
      (h : (Ron.Reader.table settings order depth).run cs = .ok (t, rest)) : Made t
  | expand {t : Table} (h : Made t) : Made t.expand

theorem Made.settled (h : Made t) : t.Settled := by
  induction h with
  | ofPairs h => exact settled_of_ofPairs h
  | read h =>
    obtain ⟨roll, pairs, hpairs⟩ := exists_ofPairs_of_reader h
    exact settled_of_ofPairs hpairs
  | expand h ih => rwa [ih.expand_eq]

/-! ## The round trip -/

theorem Settled.nodup_toPairs (h : t.Settled) (hnodup : (t.outcomes.map Prod.fst).Nodup) :
    (t.toPairs.map Prod.fst).Nodup := by
  have hkeys : t.toPairs.map Prod.fst = (t.outcomes.map Prod.fst).map Key.text := by
    simp [toPairs]
  rw [hkeys]
  refine hnodup.map_on fun a ha b hb hab => ?_
  have hreadable : ∀ key ∈ t.outcomes.map Prod.fst, key.Readable := by
    simpa using h.readable
  have hparse := (hreadable a ha).parse?_text
  rw [hab, (hreadable b hb).parse?_text] at hparse
  exact (Option.some.inj hparse).symm

theorem Settled.ofPairs_eq (h : t.Settled) (hnodup : (t.outcomes.map Prod.fst).Nodup)
    {visited : List (String × String)} (hvisited : visited.Perm t.toPairs) :
    Table.ofPairs t.roll visited = .ok t := by
  -- The texts in another order are the texts of the outcomes in that order.
  obtain ⟨outcomes, rfl, hperm⟩ :
      ∃ outcomes : List (Key × String), visited = outcomes.map (fun (key, outcome) => (key.text, outcome)) ∧
        outcomes.Perm t.outcomes := by
    have hcomp := congrFun₂ (List.eq_map_comp_perm fun ((key, outcome) : Key × String) => (key.text, outcome))
    exact (hcomp visited t.outcomes).mpr hvisited
  have hreadable : ∀ entry ∈ outcomes, entry.1.Readable := fun entry hentry =>
    h.readable entry (hperm.mem_iff.mp hentry)
  rw [ofPairs_eq_ok]
  refine ⟨outcomes, readOutcomes_eq hreadable, ?_⟩
  rw [ofOutcomes_eq hperm h.ordered hnodup]
  exact h.expand_eq

/--
A key that was read is read back from its text, and a table whose outcomes have one key each is built again from its
pairs, in whatever order they come.
-/
theorem ofPairs_toPairs :
    (∀ text key, Key.parse? text = some key → Key.parse? key.text = some key) ∧
      ∀ t : Table, Made t → (t.outcomes.map Prod.fst).Nodup →
        (t.toPairs.map Prod.fst).Nodup ∧
          ∀ visited, visited.Perm t.toPairs → Table.ofPairs t.roll visited = .ok t := by
  constructor
  · intro text key h
    exact (Key.readable_of_parse? h).parse?_text
  · intro t ht hnodup
    exact ⟨ht.settled.nodup_toPairs hnodup, fun _ => ht.settled.ofPairs_eq hnodup⟩

theorem ofPairs_toPairs_overlapping :
    ∃ t, ofPairs none [("5-7", "late"), (" 3 - 6 ", "early"), ("3--2", "never"), ("-2", "low")] = .ok t ∧
      t.roll = some "1d7" ∧
      t.toPairs = [("-2", "low"), ("3--2", "never"), ("3-6", "early"), ("5-7", "late")] ∧
      (t.toPairs.map Prod.fst).Nodup ∧
      ofPairs t.roll t.toPairs.reverse = .ok t ∧
      Key.parse? (Key.mk 3 (-2)).text = some ⟨3, -2⟩ := by
  have hsort : ([(⟨5, 7⟩, "late"), (⟨3, 6⟩, "early"), (⟨3, -2⟩, "never"), (⟨-2, -2⟩, "low")] :
      List (Key × String)).mergeSort (fun a b => a.1.le b.1) =
        [(⟨-2, -2⟩, "low"), (⟨3, -2⟩, "never"), (⟨3, 6⟩, "early"), (⟨5, 7⟩, "late")] :=
    mergeSort_eq (by decide) (by unfold Ordered; decide) (by decide)
  have hbuilt : ofPairs none [("5-7", "late"), (" 3 - 6 ", "early"), ("3--2", "never"), ("-2", "low")] =
      .ok (expand ⟨none, [(⟨-2, -2⟩, "low"), (⟨3, -2⟩, "never"), (⟨3, 6⟩, "early"), (⟨5, 7⟩, "late")], []⟩) := by
    rw [← hsort]
    rfl
  have htrip := ofPairs_toPairs.2 _ (.ofPairs hbuilt) (by decide)
  refine ⟨_, hbuilt, by decide, by decide, htrip.1, htrip.2 _ (List.reverse_perm _), ?_⟩
  exact ofPairs_toPairs.1 "3--2" ⟨3, -2⟩ (by decide)

end Tabletop.Table
