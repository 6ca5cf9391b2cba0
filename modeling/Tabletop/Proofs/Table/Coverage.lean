import Mathlib.Data.List.Induction
import Mathlib.Order.Bounds.Basic
import Tabletop.Proofs.Ascending
import Tabletop.Table.Resolve

/-!
# Coverage

Which rolls the outcomes of a table cover, and whose a covered roll is: where keys overlap, the last outcome
has it. The coverage that is worked out holds each covered roll once, ascending, and its ends, its gaps and
what it has at or below a number are read off it.
-/

namespace Tabletop.Table

open Ascending (Sorted)

/-! ## Ascending numbers -/

section Numbers

variable {l : List Int} {n : Int}

theorem head?_eq_some_iff_isLeast (h : l.Pairwise (· < ·)) : l.head? = some n ↔ IsLeast {m | m ∈ l} n := by
  cases l with
  | nil => simp [IsLeast]
  | cons first rest =>
    have hfirst : IsLeast {m | m ∈ first :: rest} first := by
      refine ⟨List.mem_cons_self, fun m hm => ?_⟩
      rcases List.mem_cons.mp hm with rfl | hm
      · exact le_refl m
      · exact Int.le_of_lt ((List.pairwise_cons.mp h).1 m hm)
    rw [List.head?_cons, Option.some.injEq]
    constructor
    · rintro rfl
      exact hfirst
    · exact hfirst.unique

theorem getLast?_eq_some_iff_isGreatest (h : l.Pairwise (· < ·)) :
    l.getLast? = some n ↔ IsGreatest {m | m ∈ l} n := by
  rcases List.eq_nil_or_concat l with rfl | ⟨front, last, rfl⟩
  · simp [IsGreatest]
  · rw [List.concat_eq_append] at *
    have hlast : IsGreatest {m | m ∈ front ++ [last]} last := by
      refine ⟨by simp, fun m hm => ?_⟩
      rcases List.mem_append.mp hm with hm | hm
      · exact Int.le_of_lt ((List.pairwise_append.mp h).2.2 m hm last (List.mem_singleton_self _))
      · exact Int.le_of_eq (List.mem_singleton.mp hm)
    rw [List.getLast?_concat, Option.some.injEq]
    constructor
    · rintro rfl
      exact hlast
    · exact hlast.unique

end Numbers

/-! ## Owners -/

variable {key : Key} {outcome : String} {outcomes : List (Key × String)}
  {coverage : List (Int × String)} {roll : Int} {t : Table}

def Key.Covers (k : Key) (roll : Int) : Prop := k.first ≤ roll ∧ roll ≤ k.last

instance (k : Key) (roll : Int) : Decidable (k.Covers roll) :=
  inferInstanceAs (Decidable (k.first ≤ roll ∧ roll ≤ k.last))

/-- The rolls that any of the outcomes covers. -/
def covered (outcomes : List (Key × String)) : Set Int := {roll | ∃ entry ∈ outcomes, entry.1.Covers roll}

/-- The outcome that a roll belongs to: the last of those that cover it. -/
def owner? (outcomes : List (Key × String)) (roll : Int) : Option String :=
  (outcomes.filter fun entry => entry.1.Covers roll).getLast?.map Prod.snd

theorem owner?_concat (outcomes : List (Key × String)) (key : Key) (outcome : String) (roll : Int) :
    owner? (outcomes ++ [(key, outcome)]) roll =
      if key.Covers roll then some outcome else owner? outcomes roll := by
  unfold owner?
  rw [List.filter_append]
  split
  next h => simp [h]
  next h => simp [h]

theorem exists_owner?_iff : (∃ outcome, owner? outcomes roll = some outcome) ↔ roll ∈ covered outcomes := by
  unfold owner? covered
  constructor
  · rintro ⟨outcome, h⟩
    obtain ⟨entry, hentry, -⟩ := Option.map_eq_some_iff.mp h
    obtain ⟨hmem, hcovers⟩ := List.mem_filter.mp (List.mem_of_getLast? hentry)
    exact ⟨entry, hmem, of_decide_eq_true hcovers⟩
  · rintro ⟨entry, hmem, hcovers⟩
    have hfound : entry ∈ outcomes.filter fun entry => entry.1.Covers roll :=
      List.mem_filter.mpr ⟨hmem, decide_eq_true hcovers⟩
    rw [List.getLast?_eq_some_getLast (List.ne_nil_of_mem hfound)]
    exact ⟨_, rfl⟩

theorem mem_of_owner? (h : owner? outcomes roll = some outcome) : outcome ∈ outcomes.map Prod.snd := by
  obtain ⟨entry, hentry, rfl⟩ := Option.map_eq_some_iff.mp h
  exact List.mem_map_of_mem (List.mem_filter.mp (List.mem_of_getLast? hentry)).1

/-! ## Working it out -/

theorem sorted_iff : Sorted coverage ↔ coverage.Pairwise fun a b => a.1 < b.1 := by
  unfold Sorted
  simp only [Int.compare_eq_lt]

theorem pairwise_rolls (key : Key) : key.rolls.Pairwise (· < ·) := by
  unfold Key.rolls
  rw [List.pairwise_map]
  exact List.pairwise_lt_range.imp fun h => by omega

theorem mem_cover_iff {pair : Int × String} :
    pair ∈ cover key outcome coverage ↔
      if key.Covers pair.1 then pair.2 = outcome else pair ∈ coverage := by
  obtain ⟨roll, text⟩ := pair
  unfold cover
  split
  next hempty =>
    have hnot : ¬ key.Covers roll := by
      unfold Key.Covers
      omega
    rw [if_neg hnot]
  next =>
    simp only [List.mem_append, List.mem_filter, List.mem_map, Key.mem_rolls, decide_eq_true_eq, Prod.mk.injEq]
    by_cases h : key.Covers roll
    · rw [if_pos h]
      unfold Key.Covers at h
      constructor
      · rintro ((⟨-, hlow⟩ | ⟨-, -, -, rfl⟩) | ⟨-, hhigh⟩)
        · omega
        · rfl
        · omega
      · rintro rfl
        exact .inl (.inr ⟨roll, h, rfl, rfl⟩)
    · rw [if_neg h]
      constructor
      · rintro ((⟨hmem, -⟩ | ⟨_, hroll, rfl, -⟩) | ⟨hmem, -⟩)
        · exact hmem
        · exact absurd hroll h
        · exact hmem
      · intro hmem
        by_cases hlow : roll < key.first
        · exact .inl (.inl ⟨hmem, hlow⟩)
        · unfold Key.Covers at h
          exact .inr ⟨hmem, by omega⟩

theorem sorted_cover (h : Sorted coverage) : Sorted (cover key outcome coverage) := by
  unfold cover
  split
  · exact h
  next hle =>
    rw [sorted_iff] at *
    have hrolls : (key.rolls.map (·, outcome)).Pairwise fun a b => a.1 < b.1 := by
      rw [List.pairwise_map]
      exact pairwise_rolls key
    simp only [List.pairwise_append, List.mem_append, List.mem_filter, List.mem_map, Key.mem_rolls, decide_eq_true_eq]
    refine ⟨⟨h.filter _, hrolls, ?_⟩, h.filter _, ?_⟩
    · rintro a ⟨-, hbelow⟩ b ⟨roll, hroll, rfl⟩
      omega
    · rintro a (⟨-, hbelow⟩ | ⟨roll, hroll, rfl⟩) b ⟨-, habove⟩ <;> omega

theorem coverageOf_concat (outcomes : List (Key × String)) (key : Key) (outcome : String) :
    coverageOf (outcomes ++ [(key, outcome)]) = cover key outcome (coverageOf outcomes) := by
  unfold coverageOf
  rw [List.foldl_append]
  rfl

theorem sorted_coverageOf (outcomes : List (Key × String)) : Sorted (coverageOf outcomes) := by
  induction outcomes using List.reverseRecOn with
  | nil => exact List.Pairwise.nil
  | append_singleton front entry ih =>
    rw [coverageOf_concat]
    exact sorted_cover ih

theorem mem_coverageOf_iff : (roll, outcome) ∈ coverageOf outcomes ↔ owner? outcomes roll = some outcome := by
  induction outcomes using List.reverseRecOn with
  | nil => simp [coverageOf, owner?]
  | append_singleton front entry ih =>
    obtain ⟨key, text⟩ := entry
    rw [coverageOf_concat, mem_cover_iff, owner?_concat]
    split
    · rw [Option.some.injEq, eq_comm]
    · exact ih

theorem mem_coverageOf {pair : Int × String} (h : pair ∈ coverageOf outcomes) : pair.2 ∈ outcomes.map Prod.snd :=
  mem_of_owner? (mem_coverageOf_iff.mp h)

theorem lookup_coverageOf (outcomes : List (Key × String)) (roll : Int) :
    (coverageOf outcomes).lookup roll = owner? outcomes roll := by
  apply Option.ext
  intro outcome
  rw [(sorted_coverageOf outcomes).lookup_eq_some, mem_coverageOf_iff]

/-! ## Ends -/

theorem mem_rolls_coverageOf : roll ∈ (coverageOf outcomes).map Prod.fst ↔ roll ∈ covered outcomes := by
  rw [← exists_owner?_iff, List.mem_map]
  simp only [← mem_coverageOf_iff]
  constructor
  · rintro ⟨⟨roll, outcome⟩, hmem, rfl⟩
    exact ⟨outcome, hmem⟩
  · rintro ⟨outcome, hmem⟩
    exact ⟨_, hmem, rfl⟩

theorem pairwise_coverageOf (outcomes : List (Key × String)) :
    ((coverageOf outcomes).map Prod.fst).Pairwise (· < ·) := by
  rw [List.pairwise_map]
  exact sorted_iff.mp (sorted_coverageOf outcomes)

theorem setOf_mem_rolls_coverageOf (outcomes : List (Key × String)) :
    {roll | roll ∈ (coverageOf outcomes).map Prod.fst} = covered outcomes :=
  Set.ext fun _ => mem_rolls_coverageOf

section Expanded

variable (h : t.coverage = coverageOf t.outcomes)
include h

theorem lowest?_eq_some_iff {low : Int} : t.lowest? = some low ↔ IsLeast (covered t.outcomes) low := by
  unfold lowest?
  rw [h, ← List.head?_map, head?_eq_some_iff_isLeast (pairwise_coverageOf _), setOf_mem_rolls_coverageOf]

theorem highest?_eq_some_iff {high : Int} : t.highest? = some high ↔ IsGreatest (covered t.outcomes) high := by
  unfold highest?
  rw [h, ← List.getLast?_map, getLast?_eq_some_iff_isGreatest (pairwise_coverageOf _), setOf_mem_rolls_coverageOf]

theorem exists_ends (hcovered : (covered t.outcomes).Nonempty) :
    ∃ low high, t.lowest? = some low ∧ t.highest? = some high := by
  obtain ⟨roll, hroll⟩ := hcovered
  rw [← mem_rolls_coverageOf, ← h] at hroll
  have hne : t.coverage ≠ [] := by
    rintro hnil
    simp [hnil] at hroll
  refine ⟨(t.coverage.head hne).1, (t.coverage.getLast hne).1, ?_, ?_⟩
  · rw [lowest?, List.head?_eq_some_head hne]
    rfl
  · rw [highest?, List.getLast?_eq_some_getLast hne]
    rfl

theorem outcomeAt?_eq_some_iff :
    t.outcomeAt? roll = some outcome ↔
      ∃ nearest, IsGreatest {m ∈ covered t.outcomes | m ≤ roll} nearest ∧
        owner? t.outcomes nearest = some outcome := by
  have hat : t.outcomeAt? roll = (t.coverage.filter fun pair => pair.1 ≤ roll).getLast?.map Prod.snd := rfl
  rw [hat, h]
  have hpairwise : (((coverageOf t.outcomes).filter fun pair => pair.1 ≤ roll).map Prod.fst).Pairwise (· < ·) :=
    (pairwise_coverageOf t.outcomes).sublist (List.filter_sublist.map Prod.fst)
  have hrolls : {n | n ∈ ((coverageOf t.outcomes).filter fun pair => pair.1 ≤ roll).map Prod.fst} =
      {m ∈ covered t.outcomes | m ≤ roll} := by
    ext n
    rw [Set.mem_ofPred_eq, Set.mem_ofPred_eq, ← mem_rolls_coverageOf]
    simp [and_comm]
  rw [← hrolls]
  simp only [← getLast?_eq_some_iff_isGreatest hpairwise, List.getLast?_map, Option.map_eq_some_iff]
  constructor
  · rintro ⟨pair, hpair, rfl⟩
    refine ⟨pair.1, ⟨pair, hpair, rfl⟩, ?_⟩
    exact mem_coverageOf_iff.mp (List.mem_filter.mp (List.mem_of_getLast? hpair)).1
  · rintro ⟨nearest, ⟨pair, hpair, rfl⟩, howner⟩
    have hpair' := mem_coverageOf_iff.mp (List.mem_filter.mp (List.mem_of_getLast? hpair)).1
    rw [howner] at hpair'
    exact ⟨pair, hpair, (Option.some.inj hpair').symm⟩

end Expanded

/-! ## Gaps -/

theorem mem_gapsIn_iff (h : (coverage.map Prod.fst).Pairwise (· < ·)) :
    roll ∈ gapsIn coverage ↔
      roll ∉ coverage.map Prod.fst ∧ (∃ low ∈ coverage.map Prod.fst, low ≤ roll) ∧
        ∃ high ∈ coverage.map Prod.fst, roll ≤ high := by
  fun_induction gapsIn coverage with
  | case1 low text high outcome rest ih =>
    obtain ⟨hlow, hrest⟩ := List.pairwise_cons.mp h
    have hhigh := (List.pairwise_cons.mp hrest).1
    rw [List.mem_append, Key.mem_rolls, ih hrest]
    simp only [List.map_cons, List.mem_cons] at *
    -- A gap lies between the first two rolls, or behind the second of them.
    constructor
    · rintro (⟨h1, h2⟩ | ⟨hnot, ⟨low', hlow', hle⟩, high', hhigh', hle'⟩)
      · refine ⟨?_, ⟨low, .inl rfl, by omega⟩, high, .inr (.inl rfl), by omega⟩
        rintro (rfl | rfl | hmem)
        · omega
        · omega
        · have := hhigh roll hmem
          omega
      · have := hlow low' hlow'
        refine ⟨?_, ⟨low', .inr hlow', hle⟩, high', .inr hhigh', hle'⟩
        rintro (rfl | hmem)
        · omega
        · exact hnot hmem
    · rintro ⟨hnot, ⟨low', hlow', hle⟩, high', hhigh', hle'⟩
      have hne : low < roll := by
        have : roll ≠ low := fun h => hnot (.inl h)
        rcases hlow' with rfl | hlow'
        · omega
        · have := hlow low' hlow'
          omega
      by_cases hbetween : roll < high
      · exact .inl ⟨by omega, by omega⟩
      · refine .inr ⟨fun hmem => hnot (.inr hmem), ⟨high, .inl rfl, by omega⟩, high', ?_, hle'⟩
        rcases hhigh' with rfl | hhigh'
        · omega
        · exact hhigh'
  | case2 coverage hshort =>
    -- One roll at most, and none on both sides of it.
    match coverage with
    | [] => simp
    | [(only, outcome)] =>
      simp only [List.map_cons, List.map_nil, List.mem_singleton, exists_eq_left, List.not_mem_nil, false_iff]
      omega
    | (low, text) :: (high, outcome) :: rest => exact absurd rfl (hshort low text high outcome rest)

theorem pairwise_gapsIn (h : (coverage.map Prod.fst).Pairwise (· < ·)) : (gapsIn coverage).Pairwise (· < ·) := by
  fun_induction gapsIn coverage with
  | case1 low text high outcome rest ih =>
    have hrest := (List.pairwise_cons.mp h).2
    rw [List.pairwise_append]
    refine ⟨pairwise_rolls _, ih hrest, ?_⟩
    intro a ha b hb
    obtain ⟨-, ⟨low', hlow', hle⟩, -⟩ := (mem_gapsIn_iff hrest).mp hb
    rw [Key.mem_rolls] at ha
    rcases List.mem_cons.mp hlow' with rfl | hlow'
    · dsimp only at ha hle
      omega
    · have := (List.pairwise_cons.mp hrest).1 low' hlow'
      dsimp only at ha this
      omega
  | case2 => exact List.Pairwise.nil

theorem mem_gaps_iff (h : t.coverage = coverageOf t.outcomes) :
    roll ∈ t.gaps ↔ roll ∉ covered t.outcomes ∧
      ∃ low high, IsLeast (covered t.outcomes) low ∧ IsGreatest (covered t.outcomes) high ∧
        low ≤ roll ∧ roll ≤ high := by
  unfold gaps
  rw [h, mem_gapsIn_iff (pairwise_coverageOf _), mem_rolls_coverageOf]
  simp only [mem_rolls_coverageOf]
  refine and_congr_right fun _ => ?_
  constructor
  · rintro ⟨⟨n, hn, hle⟩, m, hm, hle'⟩
    obtain ⟨low, high, hlow, hhigh⟩ := exists_ends h ⟨n, hn⟩
    rw [lowest?_eq_some_iff h] at hlow
    rw [highest?_eq_some_iff h] at hhigh
    exact ⟨low, high, hlow, hhigh, le_trans (hlow.2 hn) hle, le_trans hle' (hhigh.2 hm)⟩
  · rintro ⟨low, high, hlow, hhigh, hle, hle'⟩
    exact ⟨⟨low, hlow.1, hle⟩, high, hhigh.1, hle'⟩

theorem pairwise_gaps (h : t.coverage = coverageOf t.outcomes) : t.gaps.Pairwise (· < ·) := by
  unfold gaps
  rw [h]
  exact pairwise_gapsIn (pairwise_coverageOf _)

end Tabletop.Table
