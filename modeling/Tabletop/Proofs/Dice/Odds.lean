import Mathlib.Algebra.BigOperators.Fin
import Mathlib.Algebra.BigOperators.Ring.Finset
import Mathlib.Algebra.Ring.GeomSum
import Mathlib.Algebra.Polynomial.BigOperators
import Mathlib.Data.Fintype.BigOperators
import Mathlib.Data.List.Induction
import Tabletop.Dice.Odds
import Tabletop.Proofs.Ascending

/-!
# Odds count throws

The ways to roll a total are the throws that add up to it, one face for each die. Both are the coefficients of one
polynomial: the product, over the dice, of the sums of a power for each face. Counts that are kept in 64 bits are exact
at the end wherever they fit there, although on the way to a die without faces they need not.
-/

namespace Tabletop.Dice

open Polynomial

variable {dice others row next xs ys : List Nat} {total ways sides : Nat}

/-! ## Throws -/

/-- All throws of some dice. -/
def throws (dice : List Nat) : Finset (Fin dice.length → Nat) :=
  Fintype.piFinset fun die => Finset.Icc 1 dice[die]

/-- The throws that add up to a total. -/
def throwsOf (dice : List Nat) (total : Nat) : Finset (Fin dice.length → Nat) :=
  (throws dice).filter fun faces => ∑ die, faces die = total

/-- The polynomial that has a power for each face of each die. -/
noncomputable def totals (dice : List Nat) : ℕ[X] :=
  (dice.map fun sides => ∑ face ∈ Finset.Icc 1 sides, X ^ face).prod

theorem totals_perm (h : others.Perm dice) : totals others = totals dice := (h.map _).prod_eq

theorem totals_eq_sum (dice : List Nat) : totals dice = ∑ faces ∈ throws dice, X ^ ∑ die, faces die := by
  unfold totals throws
  rw [← Fin.prod_univ_fun_getElem]
  simp only [Finset.prod_univ_sum, Finset.prod_pow_eq_pow_sum]
  rfl

theorem coeff_totals (dice : List Nat) (total : Nat) : (totals dice).coeff total = (throwsOf dice total).card := by
  unfold throwsOf
  rw [totals_eq_sum, finsetSum_coeff, Finset.card_filter]
  simp only [coeff_X_pow, eq_comm]

/-! ## Exact counts -/

/-- `addRows?` for counts of any size. -/
def addRows : List Nat → List Nat → List Nat
  | [], ys => ys
  | x :: xs, [] => x :: xs
  | x :: xs, y :: ys => (x + y) :: addRows xs ys

/-- `withDie?` for counts of any size. -/
def withDie (sides : Nat) : (next ways : List Nat) → List Nat
  | next, [] => next
  | next, n :: ways =>
    match addRows (List.replicate sides n) next with
    | [] => []
    | least :: next => least :: withDie sides next ways

/-- `waysFromLeast?` for counts of any size. -/
def waysFromLeast (dice : List Nat) : List Nat := dice.foldl (fun ways sides => withDie sides [] ways) [1]

theorem addRows_eq_nil : addRows xs ys = [] ↔ xs = [] ∧ ys = [] := by
  cases xs <;> cases ys <;> simp [addRows]

/-- A row of counts as the coefficients of a polynomial. -/
noncomputable def rowPolynomial : List Nat → ℕ[X]
  | [] => 0
  | n :: row => C n + X * rowPolynomial row

theorem coeff_rowPolynomial (row : List Nat) (i : Nat) : (rowPolynomial row).coeff i = row.getD i 0 := by
  induction row generalizing i with
  | nil => simp [rowPolynomial]
  | cons n row ih => cases i <;> simp [rowPolynomial, ih]

theorem eval_rowPolynomial (row : List Nat) : (rowPolynomial row).eval 1 = row.sum := by
  induction row with
  | nil => simp [rowPolynomial]
  | cons n row ih => simp [rowPolynomial, ih]

theorem rowPolynomial_addRows (xs ys : List Nat) :
    rowPolynomial (addRows xs ys) = rowPolynomial xs + rowPolynomial ys := by
  induction xs generalizing ys with
  | nil => simp [addRows, rowPolynomial]
  | cons x xs ih =>
    cases ys with
    | nil => simp [addRows, rowPolynomial]
    | cons y ys =>
      simp only [addRows, rowPolynomial, ih, C_add]
      ring

theorem rowPolynomial_replicate (sides n : Nat) :
    rowPolynomial (List.replicate sides n) = C n * ∑ i ∈ Finset.range sides, X ^ i := by
  induction sides with
  | zero => simp [rowPolynomial]
  | succ sides ih =>
    rw [List.replicate_succ, rowPolynomial, ih, geom_sum_succ]
    ring

theorem rowPolynomial_withDie (sides : Nat) (next row : List Nat) :
    rowPolynomial (withDie sides next row) =
      rowPolynomial next + rowPolynomial row * ∑ i ∈ Finset.range sides, X ^ i := by
  induction row generalizing next with
  | nil => simp [withDie, rowPolynomial]
  | cons n row ih =>
    have hadd := rowPolynomial_addRows (List.replicate sides n) next
    rw [rowPolynomial_replicate] at hadd
    unfold withDie
    split
    next hnil =>
      obtain ⟨hsides, rfl⟩ := addRows_eq_nil.mp hnil
      obtain rfl : sides = 0 := by simpa using hsides
      simp [rowPolynomial]
    next least next' hcons =>
      rw [hcons, rowPolynomial] at hadd
      calc
        rowPolynomial (least :: withDie sides next' row)
        _ = (C least + X * rowPolynomial next') + X * rowPolynomial row * ∑ i ∈ Finset.range sides, X ^ i := by
          rw [rowPolynomial, ih]
          ring
        _ = rowPolynomial next + rowPolynomial (n :: row) * ∑ i ∈ Finset.range sides, X ^ i := by
          rw [hadd, rowPolynomial]
          ring

theorem sum_faces (sides : Nat) :
    ∑ face ∈ Finset.Icc 1 sides, (X : ℕ[X]) ^ face = X * ∑ i ∈ Finset.range sides, X ^ i := by
  induction sides with
  | zero => simp
  | succ sides ih => rw [Finset.sum_Icc_succ_top (by omega), ih, Finset.sum_range_succ, mul_add, pow_succ']

theorem waysFromLeast_concat (dice : List Nat) (sides : Nat) :
    waysFromLeast (dice ++ [sides]) = withDie sides [] (waysFromLeast dice) := by
  unfold waysFromLeast
  rw [List.foldl_append, List.foldl_cons, List.foldl_nil]

theorem rowPolynomial_waysFromLeast (dice : List Nat) :
    X ^ dice.length * rowPolynomial (waysFromLeast dice) = totals dice := by
  induction dice using List.reverseRecOn with
  | nil => simp [waysFromLeast, rowPolynomial, totals]
  | append_singleton dice sides ih =>
    have htotals : totals (dice ++ [sides]) = totals dice * (X * ∑ i ∈ Finset.range sides, X ^ i) := by
      rw [← sum_faces]
      simp [totals]
    rw [waysFromLeast_concat, rowPolynomial_withDie, rowPolynomial, zero_add, List.length_append, List.length_singleton,
      htotals, ← ih]
    ring

theorem pos_addRows (hxs : ∀ n ∈ xs, 0 < n) (hys : ∀ n ∈ ys, 0 < n) : ∀ n ∈ addRows xs ys, 0 < n := by
  induction xs generalizing ys with
  | nil => exact hys
  | cons x xs ih =>
    cases ys with
    | nil => exact hxs
    | cons y ys =>
      rw [List.forall_mem_cons] at hxs hys
      exact List.forall_mem_cons.mpr ⟨Nat.add_pos_left hxs.1 y, ih hxs.2 hys.2⟩

theorem pos_withDie (hnext : ∀ n ∈ next, 0 < n) (hrow : ∀ n ∈ row, 0 < n) : ∀ n ∈ withDie sides next row, 0 < n := by
  induction row generalizing next with
  | nil => exact hnext
  | cons n row ih =>
    rw [List.forall_mem_cons] at hrow
    have hfaces : ∀ m ∈ List.replicate sides n, 0 < m := fun m hm => List.eq_of_mem_replicate hm ▸ hrow.1
    have hadded := pos_addRows hfaces hnext
    unfold withDie
    split
    next => exact List.forall_mem_nil _
    next least next' hcons =>
      rw [hcons, List.forall_mem_cons] at hadded
      exact List.forall_mem_cons.mpr ⟨hadded.1, ih hadded.2 hrow.2⟩

theorem pos_waysFromLeast (dice : List Nat) : ∀ n ∈ waysFromLeast dice, 0 < n := by
  induction dice using List.reverseRecOn with
  | nil => exact List.forall_mem_singleton.mpr Nat.one_pos
  | append_singleton dice sides ih =>
    rw [waysFromLeast_concat]
    exact pos_withDie (List.forall_mem_nil _) ih

theorem sum_waysFromLeast (dice : List Nat) : (waysFromLeast dice).sum = dice.prod := by
  have heval := congrArg (eval 1) (rowPolynomial_waysFromLeast dice)
  rw [totals, eval_list_prod, List.map_map] at heval
  simpa [eval_rowPolynomial, eval_finsetSum, Function.comp_def] using heval

theorem getElem?_waysFromLeast (hways : ways ≠ 0) :
    (∃ i, total = dice.length + i ∧ (waysFromLeast dice)[i]? = some ways) ↔ (throwsOf dice total).card = ways := by
  have hgetD (i : Nat) : (waysFromLeast dice).getD i 0 = ways ↔ (waysFromLeast dice)[i]? = some ways := by
    rw [List.getD_eq_getElem?_getD]
    cases (waysFromLeast dice)[i]? with
    | none => simp [hways.symm]
    | some n => simp
  rw [← coeff_totals, ← rowPolynomial_waysFromLeast, coeff_X_pow_mul']
  constructor
  · rintro ⟨i, rfl, hget⟩
    rw [if_pos (Nat.le_add_right _ _), Nat.add_sub_cancel_left, coeff_rowPolynomial]
    exact (hgetD i).mpr hget
  · intro hcoeff
    split at hcoeff
    next hle =>
      rw [coeff_rowPolynomial, hgetD] at hcoeff
      exact ⟨total - dice.length, by omega, hcoeff⟩
    next => exact absurd hcoeff.symm hways

/-! ## Counts that are kept -/

/-- What is kept of a row of counts. -/
def keepRow? (o : Overflow) : List Nat → Option (List Nat)
  | [] => some []
  | n :: row => do return (← o.keep? n) :: (← keepRow? o row)

variable {o : Overflow} {kept xs' ys' next' : List Nat}

theorem keep?_add_eq_none {x : Nat} (y : Nat) (h : o.keep? x = none) : o.keep? (y + x) = none := by
  cases o with
  | wraps => cases h
  | stops =>
    unfold Overflow.keep? at h ⊢
    simp only [ite_eq_right_iff, reduceCtorEq, imp_false, not_lt] at h ⊢
    omega

theorem keep?_add {x y x' y' : Nat} (hx : o.keep? x = some x') (hy : o.keep? y = some y') :
    o.keep? (x' + y') = o.keep? (x + y) := by
  cases o with
  | wraps =>
    cases hx
    cases hy
    exact congrArg some (Nat.add_mod x y _).symm
  | stops =>
    unfold Overflow.keep? at hx hy
    simp only [Option.ite_none_right_eq_some, Option.some.injEq] at hx hy
    rw [← hx.2, ← hy.2]

theorem keepRow?_cons_eq_some {n : Nat} :
    keepRow? o (n :: row) = some kept ↔ ∃ n' row', o.keep? n = some n' ∧ keepRow? o row = some row' ∧ kept = n' :: row' := by
  simp only [keepRow?, Option.bind_eq_bind, Option.bind_eq_some_iff, Option.pure_def, Option.some.injEq,
    ← exists_and_left, eq_comm (b := kept)]

theorem keepRow?_cons_eq_none {n : Nat} :
    keepRow? o (n :: row) = none ↔ o.keep? n = none ∨ keepRow? o row = none := by
  cases hn : o.keep? n <;> cases hrow : keepRow? o row <;> simp [keepRow?, hn, hrow]

theorem keepRow?_replicate {n n' : Nat} (h : o.keep? n = some n') (sides : Nat) :
    keepRow? o (List.replicate sides n) = some (List.replicate sides n') := by
  induction sides with
  | zero => rfl
  | succ sides ih => exact keepRow?_cons_eq_some.mpr ⟨n', _, h, ih, rfl⟩

theorem addRows?_eq (hxs : keepRow? o xs = some xs') (hys : keepRow? o ys = some ys') :
    addRows? o xs' ys' = keepRow? o (addRows xs ys) := by
  induction xs generalizing ys xs' ys' with
  | nil =>
    cases hxs
    exact hys.symm
  | cons x xs ih =>
    obtain ⟨x', xs', hx, hrest, rfl⟩ := keepRow?_cons_eq_some.mp hxs
    cases ys with
    | nil =>
      cases hys
      exact hxs.symm
    | cons y ys =>
      obtain ⟨y', ys', hy, hrest', rfl⟩ := keepRow?_cons_eq_some.mp hys
      unfold addRows? addRows keepRow?
      rw [keep?_add hx hy, ih hrest hrest']

theorem keepRow?_addRows_eq_none (xs : List Nat) (h : keepRow? o ys = none) : keepRow? o (addRows xs ys) = none := by
  induction xs generalizing ys with
  | nil => exact h
  | cons x xs ih =>
    cases ys with
    | nil => cases h
    | cons y ys =>
      rw [keepRow?_cons_eq_none] at h
      exact keepRow?_cons_eq_none.mpr (h.imp (keep?_add_eq_none x) ih)

theorem keepRow?_withDie_eq_none (sides : Nat) (row : List Nat) (h : keepRow? o next = none) :
    keepRow? o (withDie sides next row) = none := by
  induction row generalizing next with
  | nil => exact h
  | cons n row ih =>
    have hadded := keepRow?_addRows_eq_none (List.replicate sides n) h
    unfold withDie
    split
    next hnil =>
      rw [hnil] at hadded
      cases hadded
    next least next' hcons =>
      rw [hcons, keepRow?_cons_eq_none] at hadded
      exact keepRow?_cons_eq_none.mpr (hadded.imp_right ih)

theorem withDie?_eq (sides : Nat) (hnext : keepRow? o next = some next') (hrow : keepRow? o row = some kept) :
    withDie? o sides next' kept = keepRow? o (withDie sides next row) := by
  induction row generalizing next next' kept with
  | nil =>
    cases hrow
    exact hnext.symm
  | cons n row ih =>
    obtain ⟨n', kept, hn, hbehind, rfl⟩ := keepRow?_cons_eq_some.mp hrow
    have hadded := addRows?_eq (keepRow?_replicate hn sides) hnext
    unfold withDie? withDie
    rw [hadded]
    cases addRows (List.replicate sides n) next with
    | nil => rfl
    | cons least rest =>
      cases hrest : keepRow? o (least :: rest) with
      | none =>
        -- What does not fit here only grows.
        refine (keepRow?_cons_eq_none.mpr ?_).symm
        exact (keepRow?_cons_eq_none.mp hrest).imp_right (keepRow?_withDie_eq_none sides row)
      | some added =>
        obtain ⟨least', rest', hleast, hrest', rfl⟩ := keepRow?_cons_eq_some.mp hrest
        simp only [Option.bind_eq_bind, Option.bind_some, ih hrest' hbehind, keepRow?, hleast]

/-! ## All dice -/

theorem waysFromLeast?_concat (o : Overflow) (dice : List Nat) (sides : Nat) :
    waysFromLeast? o (dice ++ [sides]) = (waysFromLeast? o dice).bind (withDie? o sides []) := by
  unfold waysFromLeast?
  rw [List.foldlM_append]
  simp

theorem keepRow?_waysFromLeast (h : waysFromLeast? o dice = some kept) : keepRow? o (waysFromLeast dice) = some kept := by
  induction dice using List.reverseRecOn generalizing kept with
  | nil =>
    rw [← h]
    cases o <;> rfl
  | append_singleton dice sides ih =>
    rw [waysFromLeast?_concat, Option.bind_eq_some_iff] at h
    obtain ⟨before, hbefore, hdie⟩ := h
    rw [waysFromLeast_concat, ← withDie?_eq sides rfl (ih hbefore), hdie]

theorem waysFromLeast?_eq_none_iff :
    waysFromLeast? o dice = none ↔ ∃ before, before <+: dice ∧ keepRow? o (waysFromLeast before) = none := by
  induction dice using List.reverseRecOn with
  | nil =>
    have hone : waysFromLeast? o [] = keepRow? o (waysFromLeast []) := by cases o <;> rfl
    simp [hone]
  | append_singleton dice sides ih =>
    simp only [List.prefix_concat_iff, or_and_right, exists_or, exists_eq_left, ← ih]
    rw [waysFromLeast?_concat, waysFromLeast_concat]
    cases hdice : waysFromLeast? o dice with
    | none => simp
    | some kept =>
      have hnil : keepRow? o [] = some [] := rfl
      simp [withDie?_eq sides hnil (keepRow?_waysFromLeast hdice)]

theorem keepRow?_wraps (row : List Nat) : keepRow? .wraps row = some (row.map (· % 0x10000000000000000)) := by
  induction row with
  | nil => rfl
  | cons n row ih => exact keepRow?_cons_eq_some.mpr ⟨_, _, rfl, ih, rfl⟩

theorem keepRow?_stops_eq_none_iff : keepRow? .stops row = none ↔ ∃ n ∈ row, 0x10000000000000000 ≤ n := by
  induction row with
  | nil => simp [keepRow?]
  | cons n row ih => simp [keepRow?_cons_eq_none, ih, Overflow.keep?]

theorem eq_of_keepRow?_stops (h : keepRow? .stops row = some kept) : kept = row := by
  induction row generalizing kept with
  | nil =>
    cases h
    rfl
  | cons n row ih =>
    obtain ⟨n', row', hn, hrow, rfl⟩ := keepRow?_cons_eq_some.mp h
    unfold Overflow.keep? at hn
    rw [Option.ite_none_right_eq_some, Option.some.injEq] at hn
    rw [← hn.2, ih hrow]

theorem exists_mem_waysFromLeast_iff :
    (∃ n ∈ waysFromLeast dice, 0x10000000000000000 ≤ n) ↔ ∃ total, 0x10000000000000000 ≤ (throwsOf dice total).card := by
  constructor
  · rintro ⟨n, hn, hlarge⟩
    obtain ⟨i, hi⟩ := List.mem_iff_getElem?.mp hn
    exact ⟨dice.length + i, ((getElem?_waysFromLeast (by omega)).mp ⟨i, rfl, hi⟩).symm ▸ hlarge⟩
  · rintro ⟨total, hlarge⟩
    obtain ⟨i, -, hi⟩ := (getElem?_waysFromLeast (by omega)).mpr (rfl : (throwsOf dice total).card = _)
    exact ⟨_, List.mem_of_getElem? hi, hlarge⟩

/-! ## The distribution -/

/-- The row of a distribution, from the total in which every die shows one. -/
def placed (dice row : List Nat) : List (Nat × Nat) := row.mapIdx fun i ways => (dice.length + i, ways)

theorem distribution?_stops_eq_none_iff :
    distribution? .stops dice = none ↔
      ∃ before total, before <+: dice ∧ 0x10000000000000000 ≤ (throwsOf before total).card := by
  unfold distribution?
  rw [Option.map_eq_none_iff, waysFromLeast?_eq_none_iff]
  simp only [keepRow?_stops_eq_none_iff, exists_mem_waysFromLeast_iff, ← exists_and_left]

theorem distribution?_stops_eq_some {listed : List (Nat × Nat)} (h : distribution? .stops dice = some listed) :
    listed = placed dice (waysFromLeast dice) := by
  obtain ⟨kept, hkept, rfl⟩ := Option.map_eq_some_iff.mp h
  rw [eq_of_keepRow?_stops (keepRow?_waysFromLeast hkept)]
  rfl

theorem lt_of_mem_waysFromLeast (hprod : dice.prod < 0x10000000000000000) :
    ∀ n ∈ waysFromLeast dice, n < 0x10000000000000000 := by
  intro n hn
  have hle := List.le_sum_of_mem hn
  rw [sum_waysFromLeast] at hle
  omega

/-- Counts that go around are exact at the end, where there are no more throws than fit. -/
theorem distribution?_wraps_eq (hprod : dice.prod < 0x10000000000000000) :
    distribution? .wraps dice = some (placed dice (waysFromLeast dice)) := by
  have hsome : waysFromLeast? .wraps dice ≠ none := by
    simp [waysFromLeast?_eq_none_iff, keepRow?_wraps]
  obtain ⟨kept, hkept⟩ := Option.ne_none_iff_exists'.mp hsome
  have hrow := keepRow?_waysFromLeast hkept
  have hexact : (waysFromLeast dice).map (· % 0x10000000000000000) = waysFromLeast dice := by
    rw [List.map_congr_left fun n hn => Nat.mod_eq_of_lt (lt_of_mem_waysFromLeast hprod n hn), List.map_id']
  rw [keepRow?_wraps, hexact, Option.some.injEq] at hrow
  unfold distribution?
  rw [hkept, ← hrow]
  rfl

theorem distribution_eq (hprod : dice.prod < 0x10000000000000000) :
    distribution dice = placed dice (waysFromLeast dice) := by
  rw [distribution, distribution?_wraps_eq hprod, Option.getD_some]

theorem mem_placed_iff :
    (total, ways) ∈ placed dice (waysFromLeast dice) ↔
      (throwsOf dice total).Nonempty ∧ ways = (throwsOf dice total).card := by
  have hplace : (total, ways) ∈ placed dice (waysFromLeast dice) ↔
      ways ≠ 0 ∧ ∃ i, total = dice.length + i ∧ (waysFromLeast dice)[i]? = some ways := by
    unfold placed
    simp only [List.mem_mapIdx, Prod.mk.injEq, List.getElem?_eq_some_iff]
    constructor
    · rintro ⟨i, hi, rfl, rfl⟩
      exact ⟨(pos_waysFromLeast dice _ (List.getElem_mem hi)).ne', i, rfl, hi, rfl⟩
    · rintro ⟨-, i, rfl, hi, rfl⟩
      exact ⟨i, hi, rfl, rfl⟩
  rw [hplace, ← Finset.card_pos]
  constructor
  · rintro ⟨hways, hat⟩
    have := (getElem?_waysFromLeast hways).mp hat
    omega
  · rintro ⟨hpos, rfl⟩
    exact ⟨hpos.ne', (getElem?_waysFromLeast hpos.ne').mpr rfl⟩

theorem sorted_placed (dice row : List Nat) : Ascending.Sorted (placed dice row) := by
  unfold Ascending.Sorted placed
  rw [List.pairwise_iff_getElem]
  intro i j hi hj hlt
  simpa [Nat.compare_eq_lt] using hlt

theorem sum_placed (dice row : List Nat) : ((placed dice row).map Prod.snd).sum = row.sum := by
  congr 1
  apply List.ext_getElem <;> simp [placed]

theorem card_throwsOf_perm (h : others.Perm dice) : (throwsOf others total).card = (throwsOf dice total).card := by
  rw [← coeff_totals, ← coeff_totals, totals_perm h]

theorem placed_perm (h : others.Perm dice) : placed others (waysFromLeast others) = placed dice (waysFromLeast dice) := by
  apply (sorted_placed others _).eq_of_mem_iff (sorted_placed dice _)
  rintro ⟨total, ways⟩
  rw [mem_placed_iff, mem_placed_iff, ← Finset.card_pos, ← Finset.card_pos, card_throwsOf_perm h]

/-! ## Bounds -/

theorem exists_ways_iff :
    (∃ ways, (total, ways) ∈ placed dice (waysFromLeast dice)) ↔ ∃ faces ∈ throws dice, ∑ die, faces die = total := by
  simp [mem_placed_iff, throwsOf, Finset.filter_nonempty_iff]

theorem length_le_total_le_sum {faces : Fin dice.length → Nat} (h : faces ∈ throws dice) :
    dice.length ≤ ∑ die, faces die ∧ ∑ die, faces die ≤ dice.sum := by
  have hfaces (die : Fin dice.length) : 1 ≤ faces die ∧ faces die ≤ dice[die] :=
    Finset.mem_Icc.mp (Fintype.mem_piFinset.mp h die)
  constructor
  · calc
      dice.length = ∑ _die : Fin dice.length, 1 := by simp
      _ ≤ ∑ die, faces die := Finset.sum_le_sum fun die _ => (hfaces die).1
  · rw [← Fin.sum_univ_getElem]
    exact Finset.sum_le_sum fun die _ => (hfaces die).2

theorem total_le_sum {before : List Nat} (hbefore : before <+: dice) (h : (throwsOf before total).Nonempty) :
    total ≤ dice.sum := by
  obtain ⟨faces, hmem⟩ := h
  obtain ⟨hfaces, rfl⟩ := Finset.mem_filter.mp hmem
  obtain ⟨after, rfl⟩ := hbefore
  have hle := (length_le_total_le_sum hfaces).2
  rw [List.sum_append]
  omega

section Sided

variable (h : 0 ∉ dice)
include h

theorem one_le_getElem (die : Fin dice.length) : 1 ≤ dice[die] := by
  apply Nat.one_le_iff_ne_zero.mpr
  intro hzero
  exact h (hzero ▸ List.getElem_mem die.isLt)

theorem isLeast_totals :
    IsLeast {total | ∃ ways, (total, ways) ∈ placed dice (waysFromLeast dice)} dice.length := by
  constructor
  · apply exists_ways_iff.mpr
    refine ⟨fun _ => 1, Fintype.mem_piFinset.mpr fun die => ?_, by simp⟩
    exact Finset.mem_Icc.mpr ⟨le_rfl, one_le_getElem h die⟩
  · intro total hways
    obtain ⟨faces, hfaces, rfl⟩ := exists_ways_iff.mp hways
    exact (length_le_total_le_sum hfaces).1

theorem isGreatest_totals :
    IsGreatest {total | ∃ ways, (total, ways) ∈ placed dice (waysFromLeast dice)} dice.sum := by
  constructor
  · apply exists_ways_iff.mpr
    refine ⟨fun die => dice[die], Fintype.mem_piFinset.mpr fun die => ?_, Fin.sum_univ_getElem dice⟩
    exact Finset.mem_Icc.mpr ⟨one_le_getElem h die, le_rfl⟩
  · intro total hways
    obtain ⟨faces, hfaces, rfl⟩ := exists_ways_iff.mp hways
    exact (length_le_total_le_sum hfaces).2

theorem card_throwsOf_le_prod {before : List Nat} (hbefore : before <+: dice) :
    (throwsOf before total).card ≤ dice.prod := by
  obtain ⟨after, rfl⟩ := hbefore
  have hafter : 0 < after.prod := by
    apply List.prod_pos
    intro sides hsides
    exact Nat.pos_of_ne_zero fun hzero => h (hzero ▸ List.mem_append_right before hsides)
  have hbefore : (throwsOf before total).card ≤ before.prod := by
    obtain hnone | hsome := (throwsOf before total).eq_empty_or_nonempty
    · simp [hnone]
    · rw [← sum_waysFromLeast, ← sum_placed before]
      exact List.le_sum_of_mem (List.mem_map_of_mem (mem_placed_iff.mpr ⟨hsome, rfl⟩))
  rw [List.prod_append]
  exact hbefore.trans (Nat.le_mul_of_pos_right _ hafter)

end Sided

/-! ## What the odds are -/

end Tabletop.Dice
