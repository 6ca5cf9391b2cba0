import Tabletop.Proofs.Name
import Tabletop.Proofs.Text.Integer
import Tabletop.Table.Key

/-!
# Outcome keys as they are written

A key that was read is written in a way that reads as the same key again. The hyphen is both a sign and the
mark of a range, and what keeps the two apart is that a range never starts below zero.
-/

namespace Tabletop.Table.Key

open Text (integer? integer?_eq_some integer?_toString mem_toString_int trim)

variable {k : Key} {cs before after : List Char}

/-! ## Hyphens -/

theorem aroundHyphen?_append (after : List Char) (h : '-' ∉ before) :
    aroundHyphen? (before ++ '-' :: after) = some (before, after) := by
  induction before with
  | nil => rfl
  | cons c before ih =>
    simp only [List.mem_cons, not_or] at h
    rw [List.cons_append, aroundHyphen?.eq_3 _ _ (by simpa using Ne.symm h.1), ih h.2]
    rfl

theorem aroundHyphen?_eq_none (h : '-' ∉ cs) : aroundHyphen? cs = none := by
  induction cs with
  | nil => rfl
  | cons c cs ih =>
    simp only [List.mem_cons, not_or] at h
    rw [aroundHyphen?.eq_3 _ _ (by simpa using Ne.symm h.1), ih h.2]
    rfl

theorem not_mem_of_aroundHyphen? (h : aroundHyphen? cs = some (before, after)) : '-' ∉ before := by
  fun_induction aroundHyphen? cs generalizing before with
  | case1 => cases h
  | case2 => cases h; simp
  | case3 c cs hc ih =>
    obtain ⟨⟨b, a⟩, hab, he⟩ := Option.map_eq_some_iff.mp h
    cases he
    simp only [List.mem_cons, not_or]
    exact ⟨fun h => hc h.symm, ih hab⟩

/-! ## Keys that can be read -/

/-- Both ends have 64 bits, and only a key of one roll may be below zero. -/
structure Readable (k : Key) : Prop where
  first_inRange : Text.InRange k.first
  last_inRange : Text.InRange k.last
  single_or_nonneg : k.first = k.last ∨ 0 ≤ k.first

theorem readable_of_parse? {text : String} (h : parse? text = some k) : k.Readable := by
  unfold parse? at h
  dsimp only at h
  split at h
  next c before after haround =>
    simp only [Option.bind_eq_bind, Option.bind_eq_some_iff] at h
    obtain ⟨first, hfirst, last, hlast, h⟩ := h
    cases h
    rw [integer?_eq_some] at hfirst hlast
    refine ⟨hfirst.2, hlast.2, .inr (Text.nonneg_of_signed? ?_ hfirst.1)⟩
    intro hmem
    exact not_mem_of_aroundHyphen? haround (Text.mem_of_mem_trim hmem)
  next =>
    obtain ⟨n, hn, h⟩ := Option.map_eq_some_iff.mp h
    cases h
    have hrange := (integer?_eq_some.mp hn).2
    exact ⟨hrange, hrange, .inl rfl⟩

/-! ## Writing and reading -/

theorem isBlank_of_mem_toString {n : Int} {c : Char} (h : c ∈ (toString n).toList) :
    Text.isBlank c = false := by
  rcases mem_toString_int h with rfl | hdigit
  · decide
  · exact Name.isBlank_of_isAsciiDigit hdigit

theorem trim_toString (n : Int) : trim (toString n).toList = (toString n).toList :=
  Text.trim_eq_self fun _ => isBlank_of_mem_toString

theorem not_mem_toString {n : Int} (h : 0 ≤ n) : '-' ∉ (toString n).toList := by
  obtain ⟨m, rfl⟩ := Int.eq_ofNat_of_zero_le h
  intro hmem
  exact absurd (Text.isAsciiDigit_of_mem_toString hmem) (by decide)

theorem toString_ne_nil (n : Int) : (toString n).toList ≠ [] := by
  cases n with
  | ofNat n => exact Text.ne_nil_of_digits? (Text.digits?_toString n)
  | negSucc n =>
    rw [Text.toList_toString_negSucc]
    exact List.cons_ne_nil _ _

theorem parse?_toString {n : Int} (h : Text.InRange n) : parse? (toString n) = some ⟨n, n⟩ := by
  unfold parse?
  dsimp only
  rw [trim_toString, integer?_toString h]
  cases n with
  | ofNat n =>
    have hnonneg : 0 ≤ Int.ofNat n := Int.natCast_nonneg n
    rw [aroundHyphen?_eq_none (not_mem_toString hnonneg)]
    rfl
  | negSucc n =>
    -- The first hyphen is the sign, and in front of it stands nothing.
    rw [Text.toList_toString_negSucc]
    rfl

theorem parse?_range {first last : Int} (hfirst : Text.InRange first) (hlast : Text.InRange last)
    (hnonneg : 0 ≤ first) : parse? (toString first ++ "-" ++ toString last) = some ⟨first, last⟩ := by
  have htext : (toString first ++ "-" ++ toString last).toList =
      (toString first).toList ++ '-' :: (toString last).toList := by
    simp
  have htrim : trim ((toString first).toList ++ '-' :: (toString last).toList) =
      (toString first).toList ++ '-' :: (toString last).toList := by
    apply Text.trim_eq_self
    intro c hc
    rw [List.mem_append, List.mem_cons] at hc
    rcases hc with hc | rfl | hc
    · exact isBlank_of_mem_toString hc
    · decide
    · exact isBlank_of_mem_toString hc
  obtain ⟨c, before, hcons⟩ := List.exists_cons_of_ne_nil (toString_ne_nil first)
  unfold parse?
  dsimp only
  rw [htext, htrim, aroundHyphen?_append _ (not_mem_toString hnonneg), hcons]
  dsimp only
  rw [← hcons, trim_toString, trim_toString, integer?_toString hfirst, integer?_toString hlast]
  rfl

theorem Readable.parse?_text (h : k.Readable) : parse? k.text = some k := by
  obtain ⟨hfirst, hlast, hsingle⟩ := h
  unfold text
  split
  next heq =>
    rw [parse?_toString hfirst]
    cases k
    simp_all
  next hne => exact parse?_range hfirst hlast (hsingle.resolve_left hne)

end Tabletop.Table.Key
