import Mathlib.Tactic.SplitIfs
import Tabletop.Name
import Tabletop.Proofs.Text.Blank

/-!
# Normalized names

A normalized name holds only characters that normalizing keeps, so normalizing it again changes nothing.
-/

namespace Tabletop

/-! ## Characters -/

namespace Text

theorem isAsciiDigit_iff {c : Char} : isAsciiDigit c = true ↔ 48 ≤ c.toNat ∧ c.toNat ≤ 57 := by
  simp [isAsciiDigit, Char.le_def, UInt32.le_iff_toNat_le]

/-- The codes of the blanks. -/
def blanks : List Nat :=
  [9, 10, 11, 12, 13, 0x20, 0x85, 0xA0, 0x1680, 0x2000, 0x2001, 0x2002, 0x2003, 0x2004, 0x2005, 0x2006, 0x2007,
    0x2008, 0x2009, 0x200A, 0x2028, 0x2029, 0x202F, 0x205F, 0x3000]

theorem mem_blanks {c : Char} (h : isBlank c = true) : c.toNat ∈ blanks := by
  simp [isBlank] at h
  simp [blanks]
  omega

theorem isDigit_of_isBlank {c : Char} (h : isBlank c = true) : isDigit c = false := by
  have hnone : ∀ n ∈ blanks, ¬ (48 ≤ n ∧ n ≤ 57) ∧ ¬ ∃ start ∈ zeros, start ≤ n ∧ n < start + 10 := by decide
  obtain ⟨hascii, hzeros⟩ := hnone _ (mem_blanks h)
  rw [← isAsciiDigit_iff, Bool.not_eq_true] at hascii
  unfold isDigit
  rw [hascii, Bool.false_or, Bool.and_eq_false_iff, List.any_eq_false]
  exact .inr fun start hstart hin => hzeros ⟨start, hstart, by simpa using hin⟩

end Text

namespace Name

/-- Small letters and the underscore. These are all that a token can put into a name. -/
def isPlain (c : Char) : Bool := ('a' ≤ c && c ≤ 'z') || c == '_'

theorem isPlain_iff {c : Char} :
    isPlain c = true ↔ (97 ≤ c.toNat ∧ c.toNat ≤ 122) ∨ c.toNat = 95 := by
  rw [isPlain, Bool.or_eq_true, Bool.and_eq_true, beq_iff_eq, ← Char.toNat_inj]
  simp [Char.le_def, UInt32.le_iff_toNat_le]

theorem isKept_iff {c : Char} : isKept c = true ↔ isPlain c = true ∨ Text.isAsciiDigit c = true := by
  simp only [isKept, isPlain, Bool.or_eq_true]
  exact or_right_comm

theorem isBlank_of_isKept {c : Char} (h : isKept c = true) : Text.isBlank c = false := by
  rw [isKept_iff, isPlain_iff, Text.isAsciiDigit_iff] at h
  simp [Text.isBlank]
  omega

theorem isBlank_of_isAsciiDigit {c : Char} (h : Text.isAsciiDigit c = true) : Text.isBlank c = false :=
  isBlank_of_isKept (isKept_iff.mpr (.inr h))

theorem toLower_toNat (c : Char) :
    c.toLower.toNat = if 65 ≤ c.toNat ∧ c.toNat ≤ 90 then c.toNat + 32 else c.toNat := by
  have hrange : c.val ≥ 'A'.val ∧ c.val ≤ 'Z'.val ↔ 65 ≤ c.toNat ∧ c.toNat ≤ 90 := by
    simp [UInt32.le_iff_toNat_le, Char.toNat_val]
  unfold Char.toLower
  split
  next h =>
    rw [if_pos (hrange.mp h), Char.toNat_mk, UInt32.toNat_add, Char.toNat_val]
    have := (hrange.mp h).2
    simp
    omega
  next h => rw [if_neg (fun hr => h (hrange.mpr hr))]

theorem lower_toNat (c : Char) :
    (lower c).toNat =
      if c.toNat = 0x212A then 107 else if c.toNat = 0x130 then 105
      else if 65 ≤ c.toNat ∧ c.toNat ≤ 90 then c.toNat + 32 else c.toNat := by
  have hk : c = '\u212A' ↔ c.toNat = 0x212A := by rw [← Char.toNat_inj]; rfl
  have hi : c = '\u0130' ↔ c.toNat = 0x130 := by rw [← Char.toNat_inj]; rfl
  simp only [lower, hk, hi]
  split_ifs <;> simp_all [toLower_toNat]

theorem joined_toNat (c : Char) :
    (joined c).toNat = if c.toNat = 32 ∨ c.toNat = 45 then 95 else c.toNat := by
  have hs : c = ' ' ↔ c.toNat = 32 := by rw [← Char.toNat_inj]; rfl
  have hh : c = '-' ↔ c.toNat = 45 := by rw [← Char.toNat_inj]; rfl
  simp only [joined, Bool.or_eq_true, decide_eq_true_eq, hs, hh]
  split_ifs <;> rfl

theorem joined_lower_of_isKept {c : Char} (h : isKept c = true) : joined (lower c) = c := by
  rw [isKept_iff, isPlain_iff, Text.isAsciiDigit_iff] at h
  rw [← Char.toNat_inj, joined_toNat, lower_toNat]
  split_ifs <;> omega

theorem isAsciiDigit_of_joined_lower {c : Char} (h : Text.isAsciiDigit (joined (lower c)) = true) :
    Text.isAsciiDigit c = true := by
  rw [Text.isAsciiDigit_iff, joined_toNat, lower_toNat] at h
  rw [Text.isAsciiDigit_iff]
  split_ifs at h <;> omega

/-! ## Names -/

theorem isKept_of_mem_normalize {name : String} {c : Char} (h : c ∈ (normalize name).toList) :
    isKept c = true := by
  rw [normalize, String.toList_ofList] at h
  exact (List.mem_filter.mp h).2

theorem map_joined_lower {cs : List Char} (h : ∀ c ∈ cs, isKept c = true) : cs.map (joined ∘ lower) = cs := by
  have hmap : cs.map (joined ∘ lower) = cs.map id := List.map_congr_left fun c hc => joined_lower_of_isKept (h c hc)
  rw [hmap, List.map_id]

theorem normalize_eq_self {name : String} (h : ∀ c ∈ name.toList, isKept c = true) :
    normalize name = name := by
  rw [normalize, Text.trim_eq_self fun c hc => isBlank_of_isKept (h c hc), map_joined_lower h,
    List.filter_eq_self.mpr h, String.ofList_toList]

theorem normalize_words {first second : List Char} (hfirst : ∀ c ∈ first, isKept c = true)
    (hsecond : ∀ c ∈ second, isKept c = true) (hne : first ≠ []) (hne' : second ≠ []) :
    normalize (String.ofList (first ++ ' ' :: second)) = String.ofList (first ++ '_' :: second) := by
  have htrim : Text.trim (first ++ ' ' :: second) = first ++ ' ' :: second := by
    refine Text.trim_eq_self_of_ends (fun c hc => isBlank_of_isKept ?_) fun c hc => isBlank_of_isKept ?_
    · rw [List.head?_append, List.head?_eq_some_head hne, Option.some_or] at hc
      obtain rfl := Option.some.inj hc
      exact hfirst _ (List.head_mem hne)
    · rw [← List.singleton_append, ← List.append_assoc, List.getLast?_append, List.getLast?_eq_some_getLast hne',
        Option.some_or] at hc
      obtain rfl := Option.some.inj hc
      exact hsecond _ (List.getLast_mem hne')
  rw [normalize, String.toList_ofList, htrim, List.map_append, List.map_cons, map_joined_lower hfirst,
    map_joined_lower hsecond, List.filter_append, List.filter_cons_of_pos (by decide),
    List.filter_eq_self.mpr hfirst, List.filter_eq_self.mpr hsecond]
  rfl

theorem normalize_append_blank (name : List Char) :
    normalize (String.ofList (name ++ [' '])) = normalize (String.ofList name) := by
  simp only [normalize, String.toList_ofList]
  rw [Text.trim_append_blank (by decide)]

theorem normalize_normalize (name : String) : normalize (normalize name) = normalize name :=
  normalize_eq_self fun _ h => isKept_of_mem_normalize h

theorem isPlain_of_mem_normalize {name : String} {c : Char}
    (hname : ∀ d ∈ name.toList, Text.isAsciiDigit d = false) (h : c ∈ (normalize name).toList) :
    isPlain c = true := by
  have hkept := isKept_of_mem_normalize h
  rw [normalize, String.toList_ofList] at h
  obtain ⟨d, hd, rfl⟩ := List.mem_map.mp (List.mem_filter.mp h).1
  have hmem : d ∈ name.toList := Text.mem_of_mem_trim hd
  rcases isKept_iff.mp hkept with hplain | hdigit
  · exact hplain
  · have := hname d hmem
    rw [isAsciiDigit_of_joined_lower hdigit] at this
    cases this

end Name

end Tabletop
