import Mathlib.Data.List.Basic
import Tabletop.Placeholder.Substitution
import Tabletop.Proofs.Placeholder.Reading
import Tabletop.Proofs.Text.Integer

/-!
# Substitution, token by token

Where every token closes before the next one opens, a token can only stand where it was written. So each
placeholder is written over just the token that it was read from.
-/

namespace Tabletop

open Tabletop.Random

/-! ## Search -/

namespace Text

/-- The search for the pattern passes over such a text, whatever stands behind it. -/
def Passes (pattern before : List Char) : Prop :=
  ∀ text, around? pattern (before ++ text) =
    (around? pattern text).map fun (b, a) => (before ++ b, a)

variable {pattern before : List Char}

theorem passes_nil : Passes pattern [] := by
  intro text
  simp

theorem Passes.cons {c : Char} (hbefore : Passes pattern before)
    (hc : ∀ text, pattern.isPrefixOf? (c :: (before ++ text)) = none) : Passes pattern (c :: before) := by
  intro text
  rw [List.cons_append, around?, hc text]
  simp only
  rw [hbefore text, Option.map_map]
  rfl

theorem Passes.append {a b : List Char} (ha : Passes pattern a) (hb : Passes pattern b) :
    Passes pattern (a ++ b) := by
  intro text
  rw [List.append_assoc, ha, hb, Option.map_map]
  simp [Function.comp_def]

theorem passes_of_not_mem {opening : Char} (h : opening ∉ before) :
    Passes (opening :: pattern) before := by
  induction before with
  | nil => exact passes_nil
  | cons c before ih =>
    rw [List.mem_cons, not_or] at h
    refine (ih h.2).cons fun text => ?_
    rw [isPrefixOf?_cons_cons, if_neg (by simpa using h.1)]

theorem takeWhile_append_close {closing : Char} {inner after : List Char} (h : closing ∉ inner) :
    (inner ++ closing :: after).takeWhile (· != closing) = inner := by
  rw [List.takeWhile_append_of_pos, List.takeWhile_cons_of_neg (by simp), List.append_nil]
  intro c hc
  rw [bne_iff_ne]
  rintro rfl
  exact h hc

theorem passes_of_not_suffix {closing : Char} {inner : List Char} (hinner : closing ∉ inner)
    (hbefore : closing ∉ before) (hsuffix : ¬ inner ++ [closing] <:+ before ++ [closing]) :
    Passes (inner ++ [closing]) (before ++ [closing]) := by
  induction before with
  | nil =>
    cases inner with
    | nil => exact absurd (List.suffix_refl _) hsuffix
    | cons opening inner =>
      rw [List.mem_cons, not_or] at hinner
      exact passes_of_not_mem (by simpa using Ne.symm hinner.1)
  | cons c before ih =>
    have htail : ¬ inner ++ [closing] <:+ before ++ [closing] := by
      intro h
      exact hsuffix (h.trans (List.suffix_cons _ _))
    refine (ih (fun h => hbefore (List.mem_cons_of_mem c h)) htail).cons fun text => ?_
    rw [Option.eq_none_iff_forall_ne_some]
    intro after hafter
    have heq := List.isPrefixOf?_eq_some_iff_append_eq.mp hafter
    simp only [List.append_assoc, List.cons_append, List.nil_append] at heq
    -- Both sides close first where they end, so up to there they are the same.
    have hsame : inner = c :: before := by
      rw [← takeWhile_append_close hinner, heq, ← List.cons_append, takeWhile_append_close hbefore]
    rw [hsame] at hsuffix
    exact hsuffix (List.suffix_refl _)

theorem around?_eq_none_of_not_mem {text : List Char} {c : Char} (hpattern : c ∈ pattern)
    (htext : c ∉ text) : around? pattern text = none := by
  rw [Option.eq_none_iff_forall_ne_some]
  rintro ⟨b, a⟩ h
  rw [eq_of_around? h] at htext
  simp [hpattern] at htext

end Text

namespace Placeholder

/-! ## Tokens in front of a token -/

section Braced

variable {token other before : List Char} (hbraced : (Piece.token token).Braced)
include hbraced

theorem passes_of_not_mem (h : '{' ∉ before) : Text.Passes token before := by
  obtain ⟨inside, rfl, -⟩ := hbraced
  exact Text.passes_of_not_mem h

theorem passes_of_not_suffix (hother : (Piece.token other).Braced) (h : ¬ token <:+ other) :
    Text.Passes token other := by
  obtain ⟨inside, rfl, hinside⟩ := hbraced
  obtain ⟨inner, rfl, hinner⟩ := hother
  exact Text.passes_of_not_suffix (by simpa using hinside) (by simpa using hinner) h

theorem around?_self (after : List Char) : Text.around? token (token ++ after) = some ([], after) := by
  obtain ⟨inside, rfl, -⟩ := hbraced
  have hprefix : ('{' :: inside ++ ['}']).isPrefixOf? ('{' :: (inside ++ ['}'] ++ after)) = some after :=
    List.isPrefixOf?_eq_some_iff_append_eq.mpr rfl
  rw [List.cons_append, List.cons_append, Text.around?, ← List.cons_append, hprefix]

theorem around?_eq_none_of_not_mem {text : List Char} (h : '}' ∉ text) :
    Text.around? token text = none := by
  obtain ⟨inside, rfl, -⟩ := hbraced
  exact Text.around?_eq_none_of_not_mem (by simp) h

end Braced

/-- No token that is dropped ends in one that is kept further on. -/
def Unshadowed (ts : List (List Char)) : Prop :=
  ts.Pairwise fun dropped kept =>
    (outline dropped).isKept = false → (outline kept).isKept = true → ¬ kept <:+ dropped

instance (ts : List (List Char)) : Decidable (Unshadowed ts) :=
  inferInstanceAs (Decidable (ts.Pairwise _))

theorem eq_of_suffix {token other : List Char} (htoken : (Piece.token token).Braced)
    (hother : (Piece.token other).Simple) (h : token <:+ other) : token = other := by
  obtain ⟨inner, rfl, -⟩ := htoken
  obtain ⟨inside, rfl, hopen, -⟩ := hother
  rcases List.suffix_cons_iff.mp h with heq | hsuffix
  · exact heq
  · have hmem : '{' ∈ inside ++ ['}'] := hsuffix.subset (by simp)
    exact absurd hmem (by simpa using hopen)

/-! ## The text that should come out -/

/-- The pieces of a text, each kept token replaced by the text of the next placeholder. -/
def rewritten : List Piece → List Placeholder → List Char
  | [], _ => []
  | .letter c :: rest, ps => c :: rewritten rest ps
  | .token cs :: rest, ps =>
    if (outline cs).isKept then
      match ps with
      | p :: ps => p.replacement.toList ++ rewritten rest ps
      | [] => cs ++ rewritten rest []
    else cs ++ rewritten rest ps

/-- All of some values rewritten, each with as many of the placeholders as it has kept tokens. -/
def rewrittenAll : List String → List Placeholder → List String
  | [], _ => []
  | v :: values, ps =>
    String.ofList (rewritten (pieces v.toList) ps) ::
      rewrittenAll values (ps.drop (keptTokens v.toList).length)

theorem rewritten_of_not_kept {cs : List Char} (h : (outline cs).isKept = false) (rest : List Piece)
    (ps : List Placeholder) : rewritten (.token cs :: rest) ps = cs ++ rewritten rest ps := by
  cases ps <;> simp [rewritten, h]

theorem ReadFrom.not_mem_replacement {token : List Char} {p : Placeholder} (h : ReadFrom token p) :
    '{' ∉ p.replacement.toList := by
  unfold replacement
  split
  · decide
  · intro hmem
    rw [rolledText, Text.trimmed, String.toList_ofList] at hmem
    have := Text.mem_of_mem_trim hmem
    rw [String.toList_append, String.toList_append, List.mem_append, List.mem_append] at this
    rcases this with (hquantity | hspace) | hentity
    · exact Text.not_mem_toString_nat (by decide) _ hquantity
    · revert hspace
      decide
    · rw [h.entity_eq] at hentity
      have hplain := isPlain_of_mem_entity hentity
      revert hplain
      decide

def keptIn (rest : List Piece) : List (List Char) :=
  (rest.filterMap Piece.token?).filter fun t => (outline t).isKept

theorem keptIn_letter (c : Char) (rest : List Piece) : keptIn (.letter c :: rest) = keptIn rest := rfl

theorem keptIn_token (cs : List Char) (rest : List Piece) :
    keptIn (.token cs :: rest) = if (outline cs).isKept then cs :: keptIn rest else keptIn rest := by
  change (cs :: rest.filterMap Piece.token?).filter _ = _
  rw [List.filter_cons]
  rfl

def writeAll (ps : List Placeholder) (fields : List (List Char)) : List (List Char) :=
  ps.foldl (fun fields p => p.writeIn fields) fields

variable {ts : List (List Char)} {ps : List Placeholder} {before : List Char}

theorem isKept_of_mem (hread : List.Forall₂ ReadFrom ts ps) {t : List Char} (ht : t ∈ ts) :
    (outline t).isKept = true := by
  obtain ⟨p, -, hfrom⟩ := exists_placeholder hread ht
  exact hfrom.kept

theorem writeAll_of_absent {field : List Char} (hfield : ∀ t ∈ ts, Text.around? t field = none)
    (hread : List.Forall₂ ReadFrom ts ps) (fields : List (List Char)) :
    writeAll ps (field :: fields) = field :: writeAll ps fields := by
  induction hread generalizing fields with
  | nil => rfl
  | cons hfirst _ ih =>
    rw [List.forall_mem_cons] at hfield
    have hwrite (p : Placeholder) (token : List Char) (hp : ReadFrom token p)
        (hnone : Text.around? token field = none) : p.writeIn (field :: fields) = field :: p.writeIn fields := by
      rw [writeIn, Text.replaceFirst?, hp.token_eq, String.toList_ofList, hnone]
      rfl
    rw [writeAll, List.foldl_cons, hwrite _ _ hfirst hfield.1]
    exact ih hfield.2 _

theorem writeIn_of_token {p : Placeholder} {token : List Char} (hbraced : (Piece.token token).Braced)
    (hbefore : Text.Passes token before) (hread : ReadFrom token p) (after : List Char)
    (fields : List (List Char)) :
    p.writeIn ((before ++ (token ++ after)) :: fields) =
      (before ++ p.replacement.toList ++ after) :: fields := by
  rw [writeIn, Text.replaceFirst?, hread.token_eq, String.toList_ofList, hbefore, around?_self hbraced]
  simp

theorem writeAll_pieces {closed : List Piece} {rest : List Char} (hclosed : ∀ piece ∈ closed, piece.Braced)
    (hrest : '}' ∉ rest) (hts : ∀ t ∈ ts, (Piece.token t).Braced)
    (hbefore : ∀ t ∈ keptIn closed ++ ts, Text.Passes t before)
    (hshadow : Unshadowed (closed.filterMap Piece.token? ++ ts))
    (hread : List.Forall₂ ReadFrom (keptIn closed ++ ts) ps) (fields : List (List Char)) :
    writeAll ps ((before ++ (closed.flatMap Piece.text ++ rest)) :: fields) =
      (before ++ (rewritten closed ps ++ rest)) ::
        writeAll (ps.drop (keptIn closed).length) fields := by
  -- What is passed joins the text in front, and the search for what is left passes over that as well.
  induction closed generalizing before ps with
  | nil =>
    refine writeAll_of_absent (fun t ht => ?_) hread fields
    rw [hbefore t ht, List.flatMap_nil, List.nil_append, around?_eq_none_of_not_mem (hts t ht) hrest]
    rfl
  | cons piece closed ih =>
    rw [List.forall_mem_cons] at hclosed
    have hbraced : ∀ t ∈ keptIn closed ++ ts, (Piece.token t).Braced := by
      rw [List.forall_mem_append]
      exact ⟨fun t ht => hclosed.2 _ (mem_of_mem_filterMap (List.mem_filter.mp ht).1), hts⟩
    cases piece with
    | letter c =>
      rw [keptIn_letter] at hbefore hread ⊢
      have hletter (t : List Char) (ht : t ∈ keptIn closed ++ ts) : Text.Passes t (before ++ [c]) :=
        (hbefore t ht).append (passes_of_not_mem (hbraced t ht) (by simpa using Ne.symm hclosed.1))
      have := ih hclosed.2 hletter hshadow hread
      rwa [List.append_assoc, List.append_assoc] at this
    | token cs =>
      have hshadow' : Unshadowed (cs :: (closed.filterMap Piece.token? ++ ts)) := hshadow
      obtain ⟨hcs, hshadow'⟩ := List.pairwise_cons.mp hshadow'
      rw [keptIn_token] at hbefore hread ⊢
      rw [List.flatMap_cons, Piece.text, List.append_assoc]
      by_cases hkept : (outline cs).isKept
      · rw [if_pos hkept] at hbefore hread ⊢
        rw [List.cons_append, List.forall_mem_cons] at hbefore
        cases hread with
        | cons hfirst hread =>
          next p ps =>
          have hnew (t : List Char) (ht : t ∈ keptIn closed ++ ts) :
              Text.Passes t (before ++ p.replacement.toList) :=
            (hbefore.2 t ht).append (passes_of_not_mem (hbraced t ht) hfirst.not_mem_replacement)
          have := ih hclosed.2 hnew hshadow' hread
          rw [writeAll, List.foldl_cons, writeIn_of_token hclosed.1 hbefore.1 hfirst, rewritten,
            if_pos hkept, List.length_cons, List.drop_succ_cons, List.append_assoc _ _ rest,
            ← List.append_assoc before]
          exact this
      · rw [if_neg hkept] at hbefore hread ⊢
        rw [Bool.not_eq_true] at hkept
        have hdropped (t : List Char) (ht : t ∈ keptIn closed ++ ts) : Text.Passes t (before ++ cs) := by
          refine (hbefore t ht).append (passes_of_not_suffix (hbraced t ht) hclosed.1 ?_)
          refine hcs t ?_ hkept (isKept_of_mem hread ht)
          exact (List.filter_sublist.append_right ts).subset ht
        have := ih hclosed.2 hdropped hshadow' hread
        rw [rewritten_of_not_kept hkept, List.append_assoc, ← List.append_assoc, ← List.append_assoc before]
        exact this

/-! ## Letters at the end -/

theorem rewritten_append_letters (closed : List Piece) (rest : List Char) (ps : List Placeholder) :
    rewritten (closed ++ rest.map Piece.letter) ps = rewritten closed ps ++ rest := by
  induction closed generalizing ps with
  | nil =>
    induction rest with
    | nil => rfl
    | cons c rest ih => exact congrArg (c :: ·) ih
  | cons piece closed ih =>
    cases piece with
    | letter c => exact congrArg (c :: ·) (ih ps)
    | token cs =>
      by_cases hkept : (outline cs).isKept
      · cases ps <;> simp [rewritten, hkept, ih]
      · simp [rewritten, hkept, ih]

theorem filterMap_append_letters (closed : List Piece) (rest : List Char) :
    (closed ++ rest.map Piece.letter).filterMap Piece.token? = closed.filterMap Piece.token? := by
  have hnone : (rest.map Piece.letter).filterMap Piece.token? = [] := by
    rw [List.filterMap_eq_nil_iff]
    intro piece hpiece
    obtain ⟨c, -, rfl⟩ := List.mem_map.mp hpiece
    rfl
  rw [List.filterMap_append, hnone, List.append_nil]

theorem flatMap_letters (rest : List Char) : (rest.map Piece.letter).flatMap Piece.text = rest := by
  induction rest with
  | nil => rfl
  | cons c rest ih => rw [List.map_cons, List.flatMap_cons, ih, Piece.text, List.singleton_append]

/-! ## All fields -/

/--
Where no dropped token ends in a kept one further on, substitution replaces each kept token by the
placeholder that was read from it, and changes nothing else.
-/
theorem substituteIn_eq_rewrittenAll_of_unshadowed {values : List String}
    (hshadow : Unshadowed (values.flatMap fun v => tokens v.toList))
    (hread : List.Forall₂ ReadFrom (values.flatMap fun v => keptTokens v.toList) ps) :
    substituteIn values ps = rewrittenAll values ps := by
  unfold substituteIn
  change (writeAll ps (values.map String.toList)).map String.ofList = _
  induction values generalizing ps with
  | nil =>
    cases hread
    rfl
  | cons v values ih =>
    rw [List.flatMap_cons] at hread hshadow
    obtain ⟨closed, rest, hpieces, hclosed, hrest⟩ := pieces_braced v.toList
    have htext : v.toList = closed.flatMap Piece.text ++ rest := by
      rw [← pieces_text v.toList, hpieces, List.flatMap_append, flatMap_letters]
    have htokens : tokens v.toList = closed.filterMap Piece.token? := by
      rw [tokens, hpieces, filterMap_append_letters]
    have hkept : keptTokens v.toList = keptIn closed := by rw [keptTokens, htokens, keptIn]
    have hts : ∀ t ∈ values.flatMap (fun w => keptTokens w.toList), (Piece.token t).Braced := by
      intro t ht
      obtain ⟨w, -, ht⟩ := List.mem_flatMap.mp ht
      exact braced_of_mem_tokens (List.mem_filter.mp ht).1
    have hsub : (values.flatMap fun w => keptTokens w.toList).Sublist
        (values.flatMap fun w => tokens w.toList) := by
      have hfilter : (values.flatMap fun w => keptTokens w.toList) =
          (values.flatMap fun w => tokens w.toList).filter fun t => (outline t).isKept :=
        List.filter_flatMap.symm
      rw [hfilter]
      exact List.filter_sublist
    have hrest' := List.forall₂_drop (keptTokens v.toList).length hread
    rw [List.drop_left] at hrest'
    rw [hkept] at hread hrest'
    have hfirst := writeAll_pieces hclosed hrest hts (fun _ _ => Text.passes_nil)
      (hshadow.sublist (by rw [htokens]; exact hsub.append_left _)) hread (values.map String.toList)
    rw [List.nil_append, List.nil_append, ← htext] at hfirst
    rw [List.map_cons, hfirst, List.map_cons, ih (List.pairwise_append.mp hshadow).2.1 hrest',
      rewrittenAll, hpieces, rewritten_append_letters, hkept]

theorem unshadowed_of_paired {values : List String} (hpaired : ∀ v ∈ values, Paired v.toList) :
    Unshadowed (values.flatMap fun v => tokens v.toList) := by
  have hsimple : ∀ t ∈ values.flatMap (fun v => tokens v.toList), (Piece.token t).Simple := by
    intro t ht
    obtain ⟨v, hv, ht⟩ := List.mem_flatMap.mp ht
    exact pieces_simple (hpaired v hv) _ (mem_of_mem_filterMap ht)
  refine List.pairwise_of_forall_mem_list fun dropped hdropped kept hkept => ?_
  intro hnot hyes hsuffix
  obtain ⟨v, -, hmem⟩ := List.mem_flatMap.mp hkept
  rw [eq_of_suffix (braced_of_mem_tokens hmem) (hsimple dropped hdropped) hsuffix, hnot] at hyes
  cases hyes

theorem substituteIn_eq_rewrittenAll {values : List String}
    (hpaired : ∀ v ∈ values, Paired v.toList)
    (hread : List.Forall₂ ReadFrom (values.flatMap fun v => keptTokens v.toList) ps) :
    substituteIn values ps = rewrittenAll values ps :=
  substituteIn_eq_rewrittenAll_of_unshadowed (unshadowed_of_paired hpaired) hread

/-! ## One text -/

/--
If no token that is dropped ends in one that is kept further on, the placeholders of a text are written over just the
tokens that they were read from.
-/
theorem substitute_eq_rewritten {text : String} {s s' : Source}
    (hread : (parse text).run s = some (.ok ps, s')) (hshadow : Unshadowed (tokens text.toList)) :
    List.Forall₂ ReadFrom (keptTokens text.toList) ps ∧
      substitute text ps = String.ofList (rewritten (pieces text.toList) ps) := by
  have hfrom := parse_ok hread
  have hall : substituteIn [text] ps = rewrittenAll [text] ps :=
    substituteIn_eq_rewrittenAll_of_unshadowed (by simpa using hshadow) (by simpa using hfrom)
  refine ⟨hfrom, ?_⟩
  rw [substitute, hall, rewrittenAll, rewrittenAll, String.join_cons, String.join_nil, String.append_empty]

def patrol : String := "\x7d \x7b2 orc\x7d \x7b?\x7d \x7bold \x7b2 orc\x7d \x7b2 orc\x7d \x7b0 orc\x7d \x7b"

theorem substitute_eq_rewritten_patrol :
    ∃ ps s', (parse patrol).run (.ofStream (fun _ => 0) 0) = some (.ok ps, s') ∧
      Unshadowed (tokens patrol.toList) ∧
      substitute patrol ps = "\x7d 2 orc \x7b?\x7d 1 old 2 orc  \x7b" ∧
      String.ofList (rewritten (pieces patrol.toList) ps) =
        "\x7d 2 orc \x7b?\x7d 1 old 2 orc  \x7b" := by
  have hshadow : Unshadowed (tokens patrol.toList) := by decide +kernel
  have hvalue :
      (((parse patrol).run (.ofStream (fun _ => 0) 0)).map fun p => p.1.toOption.map (substitute patrol)) =
        some (some "\x7d 2 orc \x7b?\x7d 1 old 2 orc  \x7b") := by
    decide +kernel
  obtain ⟨ps, s', hrun, hvalue⟩ := Roll.exists_run_of_map hvalue
  obtain ⟨-, hrewritten⟩ := substitute_eq_rewritten hrun hshadow
  exact ⟨ps, s', hrun, hshadow, hvalue, hrewritten.symm.trans hvalue⟩

def shadowed : String := "\x7b \x7bgoblin\x7d or \x7bgoblin\x7d"

/-- A dropped token that ends in a later one takes what was rolled for it. -/
theorem substitute_shadowed :
    ∃ ps s', (parse shadowed).run (.ofStream (fun _ => 0) 0) = some (.ok ps, s') ∧
      substitute shadowed ps = "\x7b 1 goblin or \x7bgoblin\x7d" ∧
      substitute shadowed ps ≠ String.ofList (rewritten (pieces shadowed.toList) ps) := by
  have hvalue :
      (((parse shadowed).run (.ofStream (fun _ => 0) 0)).map fun p => p.1.toOption.map fun ps =>
          (substitute shadowed ps, String.ofList (rewritten (pieces shadowed.toList) ps))) =
        some (some ("\x7b 1 goblin or \x7bgoblin\x7d", "\x7b \x7bgoblin\x7d or 1 goblin")) := by
    decide +kernel
  obtain ⟨ps, s', hrun, hvalue⟩ := Roll.exists_run_of_map hvalue
  rw [Prod.mk.injEq] at hvalue
  refine ⟨ps, s', hrun, hvalue.1, ?_⟩
  rw [hvalue.1, hvalue.2]
  decide

end Placeholder

end Tabletop
