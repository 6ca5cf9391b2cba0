import Tabletop.Text.Integer

/-!
# Whole numbers as they are written

A printed number is read back as itself. A run of ASCII digits is read the same way wherever a number may
stand, whatever zeros lead it.
-/

namespace Tabletop.Text

variable {cs : List Char} {n : Nat}

/-! ## Runs of digits -/

theorem isAsciiDigit_of_digits? (h : digits? cs = some n) : ∀ c ∈ cs, isAsciiDigit c = true := by
  unfold digits? at h
  split at h
  next hcs =>
    rw [Bool.and_eq_true, List.all_eq_true] at hcs
    exact hcs.2
  next => cases h

theorem ne_nil_of_digits? (h : digits? cs = some n) : cs ≠ [] := by
  rintro rfl
  simp [digits?] at h

theorem digits?_eq_ofDigitChars (hne : cs ≠ []) (hall : ∀ c ∈ cs, isAsciiDigit c = true) :
    digits? cs = some (Nat.ofDigitChars 10 cs 0) := by
  unfold digits?
  rw [if_pos]
  · rfl
  · simpa [hne] using hall

theorem unsigned?_of_digits? (h : digits? cs = some n) : unsigned? cs = some n := by
  unfold unsigned?
  split
  next rest =>
    have hplus := isAsciiDigit_of_digits? h '+' List.mem_cons_self
    exact absurd hplus (by decide)
  next => exact h

theorem signed?_of_digits? (h : digits? cs = some n) : signed? cs = some n := by
  unfold signed?
  split
  next rest =>
    have hminus := isAsciiDigit_of_digits? h '-' List.mem_cons_self
    exact absurd hminus (by decide)
  next =>
    rw [unsigned?_of_digits? h]
    rfl

theorem count?_of_digits? (h : digits? cs = some n) (hn : n < 0x100000000) : count? cs = some n := by
  simp [count?, unsigned?_of_digits? h, hn]

theorem lt_of_count? (h : count? cs = some n) : n < 0x100000000 := by
  unfold count? at h
  simpa using (Option.filter_eq_some_iff.mp h).2

section Digits

variable (hcs : ∀ c ∈ cs, isDigit c = true)
include hcs

theorem count?_eq_some : count? cs = some n ↔ digits? cs = some n ∧ n < 0x100000000 := by
  have hunsigned : unsigned? cs = digits? cs := by
    unfold unsigned?
    split
    next rest => exact absurd (hcs '+' List.mem_cons_self) (by decide)
    next => rfl
  rw [count?, hunsigned, Option.filter_eq_some_iff, decide_eq_true_eq]

theorem count?_eq_none : count? cs = none ↔ ¬ ∃ n < 0x100000000, digits? cs = some n := by
  rw [Option.eq_none_iff_forall_ne_some]
  constructor
  · rintro h ⟨n, hn, hdigits⟩
    exact h n ((count?_eq_some hcs).mpr ⟨hdigits, hn⟩)
  · intro h n hcount
    obtain ⟨hdigits, hn⟩ := (count?_eq_some hcs).mp hcount
    exact h ⟨n, hn, hdigits⟩

end Digits

/-! ## Printed numbers -/

theorem isAsciiDigit_of_mem_toString {c : Char} (h : c ∈ (toString n).toList) : isAsciiDigit c = true := by
  rw [Nat.toString_eq_repr, Nat.toList_repr] at h
  have hdigit := Nat.isDigit_of_mem_toDigits (by decide) (by decide) h
  simpa [Char.isDigit, isAsciiDigit, Char.le_def] using hdigit

theorem not_mem_toString_nat {c : Char} (h : isAsciiDigit c = false) (n : Nat) : c ∉ (toString n).toList := by
  intro hmem
  rw [isAsciiDigit_of_mem_toString hmem] at h
  cases h

theorem digits?_toString (n : Nat) : digits? (toString n).toList = some n := by
  have hdigits : (toString n).toList = Nat.toDigits 10 n := by
    rw [Nat.toString_eq_repr, Nat.toList_repr]
  have hall : ∀ c ∈ Nat.toDigits 10 n, isAsciiDigit c = true := by
    intro c hc
    rw [← hdigits] at hc
    exact isAsciiDigit_of_mem_toString hc
  rw [hdigits, digits?_eq_ofDigitChars Nat.toDigits_ne_nil hall,
    Nat.ofDigitChars_toDigits (by decide) (by decide)]

theorem toList_toString_negSucc (n : Nat) :
    (toString (Int.negSucc n)).toList = '-' :: (toString (n + 1)).toList := by
  rw [show toString (Int.negSucc n) = "-" ++ toString (n + 1) from rfl, String.toList_append]
  rfl

theorem mem_toString_int {n : Int} {c : Char} (h : c ∈ (toString n).toList) :
    c = '-' ∨ isAsciiDigit c = true := by
  cases n with
  | ofNat n => exact .inr (isAsciiDigit_of_mem_toString h)
  | negSucc n =>
    rw [toList_toString_negSucc, List.mem_cons] at h
    exact h.imp_right isAsciiDigit_of_mem_toString

theorem not_mem_toString_int {c : Char} (h : isAsciiDigit c = false) (hsign : c ≠ '-') (n : Int) :
    c ∉ (toString n).toList := by
  intro hmem
  rcases mem_toString_int hmem with rfl | hdigit
  · exact hsign rfl
  · rw [hdigit] at h
    cases h

theorem signed?_toString (n : Int) : signed? (toString n).toList = some n := by
  cases n with
  | ofNat n => exact signed?_of_digits? (digits?_toString n)
  | negSucc n =>
    rw [toList_toString_negSucc, signed?, digits?_toString]
    rfl

theorem nonneg_of_signed? {n : Int} (hcs : '-' ∉ cs) (h : signed? cs = some n) : 0 ≤ n := by
  unfold signed? at h
  split at h
  next => simp at hcs
  next =>
    cases hm : unsigned? cs with
    | none =>
      rw [hm] at h
      cases h
    | some m =>
      rw [hm] at h
      cases h
      exact Int.natCast_nonneg m

/-- What of a whole number 64 bits can keep. -/
def InRange (n : Int) : Prop := -0x8000000000000000 ≤ n ∧ n < 0x8000000000000000

theorem integer?_eq_some {cs : List Char} {n : Int} :
    integer? cs = some n ↔ signed? cs = some n ∧ InRange n := by
  simp [integer?, InRange, Option.filter_eq_some_iff]

theorem integer?_eq_none : integer? cs = none ↔ ¬ ∃ n, InRange n ∧ signed? cs = some n := by
  rw [Option.eq_none_iff_forall_ne_some]
  constructor
  · rintro h ⟨n, hrange, hsigned⟩
    exact h n (integer?_eq_some.mpr ⟨hsigned, hrange⟩)
  · intro h n hn
    obtain ⟨hsigned, hrange⟩ := integer?_eq_some.mp hn
    exact h ⟨n, hrange, hsigned⟩

theorem nonneg_of_integer? {n : Int} (hcs : ∀ c ∈ cs, isDigit c = true) (h : integer? cs = some n) : 0 ≤ n := by
  obtain ⟨hsigned, -⟩ := integer?_eq_some.mp h
  refine nonneg_of_signed? (fun hminus => ?_) hsigned
  exact absurd (hcs '-' hminus) (by decide)

theorem integer?_toString {n : Int} (h : InRange n) : integer? (toString n).toList = some n :=
  integer?_eq_some.mpr ⟨signed?_toString n, h⟩

end Tabletop.Text
