import Tabletop.Proofs.Placeholder.Substitution

/-!
# Texts in parts

A text can be read part by part where every part closes what it opens, and it can be written over part by
part where what joins the parts stands in no token.
-/

namespace Tabletop

open Tabletop.Random

/-! ## Reading -/

namespace Placeholder

theorem ofTokens_append (ts us : List (List Char)) :
    ofTokens (ts ++ us) = do
      let ps ← ofTokens ts
      let qs ← ofTokens us
      return ps ++ qs := by
  induction ts with
  | nil => simp [ofTokens]
  | cons token ts ih =>
    rw [List.cons_append, ofTokens, ofTokens, bind_assoc]
    refine bind_congr fun found => ?_
    cases found with
    | none => exact ih
    | some p =>
      simp only [ih, bind_assoc, pure_bind]
      rfl

theorem parse_append_eq {a : String} (ha : Closed a.toList) (b : String) :
    parse (a ++ b) = do
      let ps ← parse a
      let qs ← parse b
      return ps ++ qs := by
  unfold parse
  rw [String.toList_append, tokens_append _ ha, ofTokens_append]

/-- A text that closes what it opens is read on its own, and what stands behind it from the source as it was left. -/
theorem parse_append {a : String} (ha : Closed a.toList) (b : String) (s : Source) :
    (parse (a ++ b)).run s =
      match (parse a).run s with
      | none => none
      | some (.error e, t) => some (.error e, t)
      | some (.ok ps, t) =>
        match (parse b).run t with
        | none => none
        | some (.error e, u) => some (.error e, u)
        | some (.ok qs, u) => some (.ok (ps ++ qs), u) := by
  rw [parse_append_eq ha, Roll.run_bind]
  rcases (parse a).run s with _ | ⟨_ | ps, t⟩
  · rfl
  · rfl
  · dsimp only [Option.bind_some]
    rw [Roll.run_bind]
    rcases (parse b).run t with _ | ⟨_ | qs, u⟩ <;> rfl

def herd : String := "\x7d \x7b2d6 \x7brat\x7d x\x7d "

def flock : String := "\x7b1d4 owl\x7d and \x7b"

theorem parse_append_herd :
    ∃ ps qs t u, Closed herd.toList ∧
      (parse herd).run (.ofStream (fun n => UInt32.ofNat (n * 0x30000000)) 20) = some (.ok ps, t) ∧
      (parse flock).run t = some (.ok qs, u) ∧
      (parse (herd ++ flock)).run (.ofStream (fun n => UInt32.ofNat (n * 0x30000000)) 20) =
        some (.ok (ps ++ qs), u) ∧
      (ps ++ qs).map (fun p => (p.token, p.quantity)) =
        [("\x7b2d6 \x7brat\x7d", 3), ("\x7b1d4 owl\x7d", 3)] := by
  have hclosed : Closed herd.toList := by decide +kernel
  have hvalue :
      (((do return (← parse herd) ++ (← parse flock) : Roll Dice.Error (List Placeholder)).run
        (.ofStream (fun n => UInt32.ofNat (n * 0x30000000)) 20)).map fun p =>
          p.1.toOption.map fun ps => ps.map fun p => (p.token, p.quantity)) =
        some (some [("\x7b2d6 \x7brat\x7d", 3), ("\x7b1d4 owl\x7d", 3)]) := by
    decide +kernel
  obtain ⟨all, u, hrun, hall⟩ := Roll.exists_run_of_map hvalue
  obtain ⟨ps, t, hherd, hrun⟩ := Roll.run_bind_ok_iff.mp hrun
  obtain ⟨qs, u', hflock, hrun⟩ := Roll.run_bind_ok_iff.mp hrun
  rw [Roll.run_pure] at hrun
  cases hrun
  refine ⟨ps, qs, t, u, hclosed, hherd, hflock, ?_, hall⟩
  rw [parse_append hclosed, hherd]
  dsimp only
  rw [hflock]

end Placeholder

/-! ## Writing -/

namespace Text

variable {pattern : List Char} {separator : Char}

theorem isPrefixOf?_append_separator (h : separator ∉ pattern) (text rest : List Char) :
    pattern.isPrefixOf? (text ++ separator :: rest) =
      (pattern.isPrefixOf? text).map (· ++ separator :: rest) := by
  induction pattern generalizing text with
  | nil => rfl
  | cons p pattern ih =>
    rw [List.mem_cons, not_or] at h
    cases text with
    | nil =>
      rw [List.nil_append, isPrefixOf?_cons_cons, if_neg (by simpa using Ne.symm h.1)]
      rfl
    | cons c text =>
      rw [List.cons_append, isPrefixOf?_cons_cons, isPrefixOf?_cons_cons, ih h.2]
      split <;> rfl

theorem around?_append_separator (h : separator ∉ pattern) (text rest : List Char) :
    around? pattern (text ++ separator :: rest) =
      match around? pattern text with
      | some (before, after) => some (before, after ++ separator :: rest)
      | none => (around? pattern rest).map fun (before, after) => (text ++ separator :: before, after) := by
  induction text with
  | nil =>
    have hfront := isPrefixOf?_append_separator h [] rest
    rw [List.nil_append] at hfront ⊢
    rw [around?.eq_def pattern (separator :: rest)]
    dsimp only
    rw [hfront]
    cases pattern <;> rfl
  | cons c text ih =>
    have hfront := isPrefixOf?_append_separator h (c :: text) rest
    rw [List.cons_append] at hfront
    rw [List.cons_append, around?, around?, hfront]
    cases pattern.isPrefixOf? (c :: text) with
    | some after => rfl
    | none =>
      rw [ih]
      cases around? pattern text with
      | some place => rfl
      | none =>
        rw [Option.map_map]
        rfl

theorem replaceFirst?_append_separator (h : separator ∉ pattern) (new text rest : List Char) :
    replaceFirst? pattern new (text ++ separator :: rest) =
      match replaceFirst? pattern new text with
      | some written => some (written ++ separator :: rest)
      | none => (replaceFirst? pattern new rest).map (text ++ separator :: ·) := by
  unfold replaceFirst?
  rw [around?_append_separator h]
  cases around? pattern text with
  | some place => simp
  | none => simp [Function.comp_def]

end Text

namespace Placeholder

variable {separator : Char} {p : Placeholder} {fields : List (List Char)}

theorem writeIn_ne_nil (hfields : fields ≠ []) : p.writeIn fields ≠ [] := by
  cases fields with
  | nil => exact absurd rfl hfields
  | cons field fields =>
    unfold writeIn
    split <;> simp

theorem writeIn_singleton (text : List Char) :
    p.writeIn [text] = [(Text.replaceFirst? p.token.toList p.replacement.toList text).getD text] := by
  rw [writeIn, writeIn]
  cases Text.replaceFirst? p.token.toList p.replacement.toList text <;> rfl

theorem intercalate_writeIn (h : separator ∉ p.token.toList) (hfields : fields ≠ []) :
    p.writeIn [[separator].intercalate fields] = [[separator].intercalate (p.writeIn fields)] := by
  induction fields with
  | nil => exact absurd rfl hfields
  | cons field rest ih =>
    cases rest with
    | nil => rw [List.intercalate_singleton, writeIn_singleton, List.intercalate_singleton]
    | cons next rest =>
      have hrest := ih (List.cons_ne_nil next rest)
      rw [writeIn_singleton, List.singleton_inj] at hrest
      obtain ⟨first, later, hwritten⟩ :=
        List.exists_cons_of_ne_nil (writeIn_ne_nil (p := p) (List.cons_ne_nil next rest))
      rw [writeIn_singleton, List.intercalate_cons_cons, List.append_assoc, List.singleton_append,
        Text.replaceFirst?_append_separator h, writeIn]
      cases Text.replaceFirst? p.token.toList p.replacement.toList field with
      | some written => simp [List.intercalate_cons_cons]
      | none =>
        -- The token is not in this field, so it is looked for behind the separator.
        simp only [hwritten] at hrest ⊢
        rw [List.intercalate_cons_cons, ← hrest]
        generalize [separator].intercalate (next :: rest) = joined
        cases Text.replaceFirst? p.token.toList p.replacement.toList joined <;> simp

theorem writeAll_intercalate {ps : List Placeholder} (h : ∀ p ∈ ps, separator ∉ p.token.toList)
    (hfields : fields ≠ []) :
    writeAll ps [[separator].intercalate fields] = [[separator].intercalate (writeAll ps fields)] := by
  induction ps generalizing fields with
  | nil => rfl
  | cons p ps ih =>
    rw [List.forall_mem_cons] at h
    rw [writeAll, List.foldl_cons, intercalate_writeIn h.1 hfields]
    exact ih h.2 (writeIn_ne_nil hfields)

theorem map_toList_substituteIn (fields : List String) (ps : List Placeholder) :
    (substituteIn fields ps).map String.toList = writeAll ps (fields.map String.toList) := by
  simp [substituteIn, writeAll, Function.comp_def]

theorem toList_substitute (text : String) (ps : List Placeholder) :
    (substitute text ps).toList = (writeAll ps [text.toList]).flatten := by
  rw [substitute, String.toList_join, List.flatMap_def, map_toList_substituteIn, List.map_singleton]

/-- Fields that are joined by a letter which no token holds can be written over before they are joined or after. -/
theorem substitute_intercalate {fields : List String} {ps : List Placeholder} (hfields : fields ≠ [])
    (h : ∀ p ∈ ps, separator ∉ p.token.toList) :
    (String.singleton separator).intercalate (substituteIn fields ps) =
      substitute ((String.singleton separator).intercalate fields) ps := by
  rw [← String.toList_inj, toList_substitute, String.toList_intercalate, String.toList_intercalate,
    String.toList_singleton, map_toList_substituteIn,
    writeAll_intercalate h (by simpa using hfields), List.flatten_singleton]

def relay : List Placeholder := [
  ⟨"\x7bx\x7d", "", "\x7by\x7d", "", 2, none⟩,
  ⟨"\x7by\x7d", "", "a|b", "", 1, none⟩,
  ⟨"", "", "", "", 7, none⟩,
  ⟨"or", "", "", "", 0, none⟩]

/-- One placeholder writes the token of the next, which writes the separator. An empty token stands in front. -/
theorem substitute_intercalate_relay :
    (∀ p ∈ relay, '|' ∉ p.token.toList) ∧
      substituteIn ["to ", "\x7bx\x7d or \x7by\x7d"] relay = ["7to ", "2 1 a|b  \x7by\x7d"] ∧
      substitute "to |\x7bx\x7d or \x7by\x7d" relay = "7to |2 1 a|b  \x7by\x7d" := by
  have hfree : ∀ p ∈ relay, '|' ∉ p.token.toList := by decide +kernel
  have hfields : substituteIn ["to ", "\x7bx\x7d or \x7by\x7d"] relay = ["7to ", "2 1 a|b  \x7by\x7d"] := by
    decide +kernel
  have hjoined := substitute_intercalate (List.cons_ne_nil "to " ["\x7bx\x7d or \x7by\x7d"]) hfree
  rw [hfields] at hjoined
  exact ⟨hfree, hfields, hjoined.symm⟩

end Placeholder

end Tabletop
