import Mathlib.Data.List.Infix
import Tabletop.Render.Escape

/-!
# Escaped text

Both formats mark letters with a backslash and then write over the arrows. No mark stands in an arrow, so the
two do not meet, and what an escape does can be said pair by pair of neighbouring letters.
-/

namespace Tabletop

variable {new text cs piece : List Char} {pieces : List (List Char)} {former : Option Char} {a c : Char}

/-! ## Arrows -/

namespace Text

def Arrowless (cs : List Char) : Prop := ¬ ['-', '>'] <:+: cs

theorem replaceArrows_arrow : replaceArrows new ('-' :: '>' :: cs) = new ++ replaceArrows new cs := by
  rw [replaceArrows]

theorem replaceArrows_cons (h : ∀ rest, c = '-' → cs = '>' :: rest → False) :
    replaceArrows new (c :: cs) = c :: replaceArrows new cs := by
  rw [replaceArrows]
  exact h

theorem arrowless_cons_iff : Arrowless (c :: cs) ↔ (∀ rest, c = '-' → cs = '>' :: rest → False) ∧ Arrowless cs := by
  unfold Arrowless
  rw [List.infix_cons_iff, not_or]
  refine and_congr_left fun _ => ?_
  constructor
  · rintro h rest rfl rfl
    exact h (List.prefix_append _ _)
  · rintro h ⟨rest, hrest⟩
    rw [List.cons_append, List.cons.injEq] at hrest
    exact h rest hrest.1.symm hrest.2.symm

theorem arrowless_nil : Arrowless [] := by
  unfold Arrowless
  decide

theorem not_arrowless_arrow : ¬ Arrowless ('-' :: '>' :: cs) := fun h => h (List.prefix_append _ _).isInfix

theorem replaceArrows_of_arrowless (h : Arrowless cs) : replaceArrows new cs = cs := by
  induction cs with
  | nil => rfl
  | cons c cs ih =>
    rw [arrowless_cons_iff] at h
    rw [replaceArrows_cons h.1, ih h.2]

theorem replaceArrows_append_arrow (h : Arrowless piece) :
    replaceArrows new (piece ++ '-' :: '>' :: cs) = piece ++ (new ++ replaceArrows new cs) := by
  induction piece with
  | nil => exact replaceArrows_arrow
  | cons c piece ih =>
    rw [arrowless_cons_iff] at h
    rw [List.cons_append, replaceArrows_cons, ih h.2, List.cons_append]
    rintro rest hc hpiece
    cases piece with
    | nil => cases hpiece
    | cons d piece =>
      cases hpiece
      exact h.1 piece hc rfl

theorem replaceArrows_intercalate (h : ∀ piece ∈ pieces, Arrowless piece) :
    replaceArrows new (['-', '>'].intercalate pieces) = new.intercalate pieces := by
  induction pieces with
  | nil => rfl
  | cons piece rest ih =>
    rw [List.forall_mem_cons] at h
    cases rest with
    | nil =>
      rw [List.intercalate_singleton, List.intercalate_singleton]
      exact replaceArrows_of_arrowless h.1
    | cons next rest =>
      rw [List.intercalate_cons_cons, List.intercalate_cons_cons, List.append_assoc, List.append_assoc,
        ← ih h.2]
      exact replaceArrows_append_arrow h.1

theorem exists_pieces (cs : List Char) :
    ∃ pieces, (∀ piece ∈ pieces, Arrowless piece) ∧ ['-', '>'].intercalate pieces = cs := by
  -- The first piece is named, since a letter in front of the text goes into it.
  suffices h : ∃ first rest, (∀ piece ∈ first :: rest, Arrowless piece) ∧ ['-', '>'].intercalate (first :: rest) = cs by
    obtain ⟨first, rest, h⟩ := h
    exact ⟨_, h⟩
  induction cs using replaceArrows.induct with
  | case1 cs ih =>
    obtain ⟨first, rest, hpieces, rfl⟩ := ih
    exact ⟨[], first :: rest, List.forall_mem_cons.mpr ⟨arrowless_nil, hpieces⟩, List.intercalate_cons_cons⟩
  | case2 c cs h ih =>
    obtain ⟨first, rest, hpieces, rfl⟩ := ih
    rw [List.forall_mem_cons] at hpieces
    have hfirst : Arrowless (c :: first) := by
      refine arrowless_cons_iff.mpr ⟨?_, hpieces.1⟩
      rintro later hc rfl
      cases rest with
      | nil => exact h later hc List.intercalate_singleton
      | cons next rest => exact h _ hc List.intercalate_cons_cons
    refine ⟨c :: first, rest, List.forall_mem_cons.mpr ⟨hfirst, hpieces.2⟩, ?_⟩
    cases rest with
    | nil => simp
    | cons next rest => simp
  | case3 => exact ⟨[], [], by simpa using arrowless_nil, rfl⟩

end Text

namespace Escape

open Text (Arrowless replaceArrows)

/-! ## Marks -/

/-- Each letter behind its former one. -/
def withFormer (former : Option Char) (cs : List Char) : List (Option Char × Char) := (former :: cs.map some).zip cs

/-- Puts a backslash in front of the letters that have a mark, which may depend on the former letter. -/
def marked (mark : Option Char × Char → Bool) (former : Option Char) (cs : List Char) : List Char :=
  (withFormer former cs).flatMap fun pair => if mark pair then ['\\', pair.2] else [pair.2]

/-- Marks the underscores behind a kind of letters. -/
def behind (kind : Char → Bool) : Option Char × Char → Bool := fun (former, c) => c = '_' && former.any kind

/-- Marks the signs of emphasis. -/
def emphasis : Option Char × Char → Bool := fun (_, c) => c = '_' || c = '*'

/-- No mark on a letter of an arrow, and none on a backslash. -/
def Spares (mark : Option Char × Char → Bool) : Prop := ∀ former, ∀ c ∈ ['-', '>', '\\'], mark (former, c) = false

theorem withFormer_cons : withFormer former (c :: cs) = (former, c) :: withFormer (some c) cs := rfl

theorem marked_cons (mark : Option Char × Char → Bool) :
    marked mark former (c :: cs) = (if mark (former, c) then ['\\', c] else [c]) ++ marked mark (some c) cs := rfl

theorem spares_behind (kind : Char → Bool) : Spares (behind kind) := by
  unfold Spares behind
  simp

theorem spares_emphasis : Spares emphasis := by
  unfold Spares emphasis
  simp

theorem mem_withFormer : (some a, c) ∈ withFormer former cs ↔ [a, c] <:+: former.toList ++ cs := by
  induction cs generalizing former with
  | nil => cases former <;> simp [withFormer, List.infix_cons_iff]
  | cons b cs ih =>
    rw [withFormer_cons, List.mem_cons, ih, Prod.mk.injEq, Option.toList_some, List.singleton_append]
    cases former with
    | none => simp
    | some d =>
      rw [Option.toList_some, List.singleton_append, List.infix_cons_iff (a := d), List.cons_prefix_cons,
        List.cons_prefix_cons]
      simp

theorem underscores_eq (former : Option Char) (cs : List Char) :
    underscores (former.any isSmall) cs = marked (behind isSmall) former cs := by
  induction cs generalizing former with
  | nil => rfl
  | cons c cs ih =>
    rw [underscores, marked_cons, ← ih (some c)]
    unfold behind
    congr 1
    split
    next h =>
      rw [Bool.and_eq_true, decide_eq_true_iff] at h
      rw [h.1]
    next => rfl

theorem flatMap_emphasis (former : Option Char) (cs : List Char) :
    (cs.flatMap fun c => if c = '_' || c = '*' then ['\\', c] else [c]) = marked emphasis former cs := by
  induction cs generalizing former with
  | nil => rfl
  | cons c cs ih =>
    rw [List.flatMap_cons, marked_cons, ← ih (some c)]
    rfl

theorem behind_agree_iff {kind other : Char → Bool} :
    (∀ pair ∈ withFormer none cs, behind kind pair = behind other pair) ↔
      ∀ a, kind a ≠ other a → ¬ [a, '_'] <:+: cs := by
  unfold behind
  constructor
  · intro h a hne hinfix
    have hmem : (some a, '_') ∈ withFormer none cs := mem_withFormer.mpr hinfix
    exact hne (by simpa using h _ hmem)
  · rintro h ⟨_ | a, c⟩ hmem
    · simp
    · by_cases hc : c = '_'
      · subst hc
        have hkind : kind a = other a := by
          by_contra hne
          exact h a hne (mem_withFormer.mp hmem)
        simp [hkind]
      · simp [hc]

/-! ## Arrows between marks -/

theorem replaceArrows_marked_cons (mark : Option Char × Char → Bool) (h : ∀ rest, c = '-' → cs = '>' :: rest → False) :
    replaceArrows new (marked mark former (c :: cs)) =
      (if mark (former, c) then ['\\', c] else [c]) ++ replaceArrows new (marked mark (some c) cs) := by
  have hplain : replaceArrows new (c :: marked mark (some c) cs) =
      c :: replaceArrows new (marked mark (some c) cs) := by
    refine Text.replaceArrows_cons fun rest hc hcs => ?_
    cases cs with
    | nil => cases hcs
    | cons d cs =>
      rw [marked_cons] at hcs
      split at hcs
      · cases hcs
      · cases hcs
        exact h cs hc rfl
  rw [marked_cons]
  split
  · rw [List.cons_append, Text.replaceArrows_cons (by simp)]
    exact congrArg _ hplain
  · exact hplain

section Spares

variable {mark other : Option Char × Char → Bool} (hmark : Spares mark)
include hmark

theorem marked_arrow : marked mark former ('-' :: '>' :: cs) = '-' :: '>' :: marked mark (some '>') cs := by
  rw [marked_cons, marked_cons, hmark _ '-' (by simp), hmark _ '>' (by simp)]
  rfl

theorem replaceArrows_marked_arrow :
    replaceArrows new (marked mark former ('-' :: '>' :: cs)) =
      new ++ replaceArrows new (marked mark (some '>') cs) := by
  rw [marked_arrow hmark, Text.replaceArrows_arrow]

theorem ne_backslash (h : mark (former, c) = true) : c ≠ '\\' := by
  rintro rfl
  rw [hmark former _ (by simp)] at h
  cases h

/-- Two ways to mark a text are told apart by any pair of letters on which they differ. -/
theorem replaceArrows_marked_eq_iff (hother : Spares other) :
    replaceArrows new (marked mark former cs) = replaceArrows new (marked other former cs) ↔
      ∀ pair ∈ withFormer former cs, mark pair = other pair := by
  induction cs using Tabletop.Text.replaceArrows.induct generalizing former with
  | case1 cs ih =>
    rw [replaceArrows_marked_arrow hmark, replaceArrows_marked_arrow hother, List.append_cancel_left_eq, ih,
      withFormer_cons, withFormer_cons, List.forall_mem_cons, List.forall_mem_cons]
    simp [hmark _ '-', hmark _ '>', hother _ '-', hother _ '>']
  | case2 c cs h ih =>
    rw [replaceArrows_marked_cons mark h, replaceArrows_marked_cons other h, withFormer_cons, List.forall_mem_cons,
      ← ih]
    -- Where only one of them marks, it has a backslash and the other has the letter itself, which is none.
    cases hm : mark (former, c) with
    | false =>
      cases ho : other (former, c) with
      | false => simp
      | true => simp [ne_backslash hother ho]
    | true =>
      cases ho : other (former, c) with
      | false => simp [(ne_backslash hmark hm).symm]
      | true => simp
  | case3 => exact iff_of_true rfl (List.forall_mem_nil _)

theorem replaceArrows_marked_eq_self_iff (hnew : ∀ after rest, new ++ after ≠ '-' :: rest) :
    replaceArrows new (marked mark former cs) = cs ↔
      Arrowless cs ∧ ∀ pair ∈ withFormer former cs, mark pair = false := by
  induction cs using Tabletop.Text.replaceArrows.induct generalizing former with
  | case1 cs ih =>
    rw [replaceArrows_marked_arrow hmark]
    exact iff_of_false (hnew _ _) fun h => Text.not_arrowless_arrow h.1
  | case2 c cs h ih =>
    rw [replaceArrows_marked_cons mark h, withFormer_cons, List.forall_mem_cons, Text.arrowless_cons_iff,
      and_iff_right h]
    cases hm : mark (former, c) with
    | false => simp [ih]
    | true => simp [(ne_backslash hmark hm).symm]
  | case3 => exact iff_of_true rfl ⟨Text.arrowless_nil, List.forall_mem_nil _⟩

end Spares

/-! ## Markdown -/

theorem toList_markdown (text : String) :
    (markdown text).toList = replaceArrows "&#8658;".toList (marked emphasis none text.toList) := by
  unfold markdown
  rw [String.toList_ofList, ← flatMap_emphasis]

theorem emphasis_iff : (∀ pair ∈ withFormer none cs, emphasis pair = false) ↔ '_' ∉ cs ∧ '*' ∉ cs := by
  have hmap : (withFormer none cs).map Prod.snd = cs := by
    unfold withFormer
    rw [List.map_snd_zip]
    simp
  have hletters : (∀ pair ∈ withFormer none cs, emphasis pair = false) ↔ ∀ c ∈ cs, ¬ (c = '_' ∨ c = '*') := by
    conv => rhs; rw [← hmap, List.forall_mem_map]
    simp [emphasis]
  rw [hletters]
  constructor
  · intro h
    exact ⟨fun hmem => h _ hmem (.inl rfl), fun hmem => h _ hmem (.inr rfl)⟩
  · rintro ⟨hunderscore, hstar⟩ c hmem (rfl | rfl)
    · exact hunderscore hmem
    · exact hstar hmem

theorem markdown_eq_self_iff {text : String} :
    markdown text = text ↔ Arrowless text.toList ∧ '_' ∉ text.toList ∧ '*' ∉ text.toList := by
  rw [← String.toList_inj, toList_markdown, replaceArrows_marked_eq_self_iff spares_emphasis (by simp), emphasis_iff]

/-! ## Typeset text -/

def bare (text : String) : List Char := text.toList.filter fun c => c ≠ '{' && c ≠ '}'

theorem isSmall_eq (c : Char) : isSmall c = (c.isLower || c.isDigit) := rfl

theorem isSmall_ne_isAlphanum_iff : isSmall c ≠ c.isAlphanum ↔ c.isUpper = true := by
  have hupper (h : c.isUpper = true) : c.isLower = false ∧ c.isDigit = false := by
    unfold Char.isUpper at h
    unfold Char.isLower Char.isDigit
    simp [UInt32.le_iff_toNat_le] at h ⊢
    omega
  rw [isSmall_eq]
  unfold Char.isAlphanum Char.isAlpha
  cases hc : c.isUpper with
  | false => simp
  | true => simp [hupper hc]

theorem toList_typeset (text : String) :
    (typeset text).toList = replaceArrows "$\\Rightarrow$".toList (marked (behind isSmall) none (bare text)) := by
  unfold typeset bare
  rw [String.toList_ofList, ← underscores_eq]
  simp

theorem mem_of_mem_replaceArrows (h : c ∈ replaceArrows new cs) : c ∈ new ∨ c ∈ cs := by
  induction cs using Tabletop.Text.replaceArrows.induct with
  | case1 cs ih =>
    rw [Text.replaceArrows_arrow, List.mem_append] at h
    exact h.elim .inl fun h => (ih h).imp_right fun h => by simp [h]
  | case2 d cs hd ih =>
    rw [Text.replaceArrows_cons hd, List.mem_cons] at h
    exact h.elim (fun h => .inr (by simp [h])) fun h => (ih h).imp_right fun h => by simp [h]
  | case3 => exact .inr h

theorem mem_of_mem_marked {mark : Option Char × Char → Bool} (h : c ∈ marked mark former cs) : c = '\\' ∨ c ∈ cs := by
  induction cs generalizing former with
  | nil => cases h
  | cons d cs ih =>
    rw [marked_cons, List.mem_append] at h
    rcases h with h | h
    · have hletters : c = '\\' ∨ c = d := by
        split at h
        · simpa using h
        · exact .inr (by simpa using h)
      exact hletters.imp_right fun h => by simp [h]
    · exact (ih h).imp_right (List.mem_cons_of_mem _)

theorem not_mem_typeset (text : String) (hc : c = '{' ∨ c = '}') : c ∉ (typeset text).toList := by
  intro h
  rw [toList_typeset] at h
  rcases mem_of_mem_replaceArrows h with h | h
  · rcases hc with rfl | rfl <;> simp at h
  · rcases mem_of_mem_marked h with rfl | h
    · simp at hc
    · unfold bare at h
      rcases hc with rfl | rfl <;> simp at h

theorem behind_eq_false_iff {kind : Char → Bool} :
    (∀ pair ∈ withFormer none cs, behind kind pair = false) ↔ ∀ a, kind a = true → ¬ [a, '_'] <:+: cs := by
  have hnone : ∀ pair, behind (fun _ => false) pair = false := by
    rintro ⟨_ | a, c⟩ <;> simp [behind]
  have hagree : (∀ pair ∈ withFormer none cs, behind kind pair = behind (fun _ => false) pair) ↔ _ := behind_agree_iff
  simpa [hnone] using hagree

theorem typeset_eq_self_iff {text : String} :
    typeset text = text ↔ ('{' ∉ text.toList ∧ '}' ∉ text.toList) ∧ Arrowless text.toList ∧
      ∀ a, isSmall a = true → ¬ [a, '_'] <:+: text.toList := by
  have hself (h : bare text = text.toList) : typeset text = text ↔
      Arrowless text.toList ∧ ∀ a, isSmall a = true → ¬ [a, '_'] <:+: text.toList := by
    rw [← String.toList_inj, toList_typeset, h, replaceArrows_marked_eq_self_iff (spares_behind _) (by simp),
      behind_eq_false_iff]
  have hbare (h : '{' ∉ text.toList ∧ '}' ∉ text.toList) : bare text = text.toList := by
    unfold bare
    rw [List.filter_eq_self]
    intro c hc
    have hopen : c ≠ '{' := by rintro rfl; exact h.1 hc
    have hclose : c ≠ '}' := by rintro rfl; exact h.2 hc
    simp [hopen, hclose]
  constructor
  · intro h
    -- Typeset text has no braces, and this is typeset text.
    have hbraces : '{' ∉ text.toList ∧ '}' ∉ text.toList := by
      constructor
      · exact h ▸ not_mem_typeset text (.inl rfl)
      · exact h ▸ not_mem_typeset text (.inr rfl)
    exact ⟨hbraces, (hself (hbare hbraces)).mp h⟩
  · rintro ⟨hbraces, h⟩
    exact (hself (hbare hbraces)).mpr h

/-- Without braces, with a backslash in front of every underscore behind a kind of letter, then with a command in
place of every arrow. -/
def Follows (kind : Char → Bool) (text out : String) : Prop :=
  ∃ pieces : List (List Char), (∀ piece ∈ pieces, Arrowless piece) ∧
    ['-', '>'].intercalate pieces = marked (behind kind) none (bare text) ∧
    out.toList = "$\\Rightarrow$".toList.intercalate pieces

theorem follows_iff {kind : Char → Bool} {text out : String} :
    Follows kind text out ↔
      out.toList = replaceArrows "$\\Rightarrow$".toList (marked (behind kind) none (bare text)) := by
  unfold Follows
  constructor
  · rintro ⟨pieces, harrowless, hpieces, hout⟩
    rw [hout, ← hpieces, Text.replaceArrows_intercalate harrowless]
  · intro hout
    obtain ⟨pieces, harrowless, hpieces⟩ := Text.exists_pieces (marked (behind kind) none (bare text))
    refine ⟨pieces, harrowless, hpieces, ?_⟩
    rw [hout, ← hpieces, Text.replaceArrows_intercalate harrowless]

instance decidableFollows (kind : Char → Bool) (text out : String) : Decidable (Follows kind text out) :=
  decidable_of_iff _ follows_iff.symm

/--
Typeset text has no braces, and a backslash in front of every underscore behind a small letter or a digit, though not
behind a capital one.
-/
theorem typeset_follows (text : String) :
    (∀ out, Follows (fun c => c.isLower || c.isDigit) text out ↔ out = typeset text) ∧
      (Follows Char.isAlphanum text (typeset text) ↔ ∀ a, a.isUpper = true → ¬ [a, '_'] <:+: bare text) := by
  have hsmall : (fun c : Char => c.isLower || c.isDigit) = isSmall := rfl
  constructor
  · intro out
    rw [follows_iff, hsmall, ← toList_typeset, String.toList_inj]
  · rw [follows_iff, toList_typeset, replaceArrows_marked_eq_iff (spares_behind _) (spares_behind _), behind_agree_iff]
    simp only [isSmall_ne_isAlphanum_iff]

/-- An underscore behind a capital letter has no backslash. -/
theorem typeset_capital :
    typeset "Plan A_b" = "Plan A_b" ∧ Follows Char.isAlphanum "Plan A_b" "Plan A\\_b" ∧
      ¬ Follows Char.isAlphanum "Plan A_b" (typeset "Plan A_b") := by
  decide

end Escape

end Tabletop
