import Tabletop.Dice.Roll
import Tabletop.Proofs.Dice.Expression

/-!
# The longest expression

Where dice are read at the start of a text, or in front of what closes it, the longest expression that stands
there is found. Read again on its own it is found in full, and it stands for dice unless one of its numbers is bad.
-/

namespace Tabletop.Dice.Expression

open Text (isDigit)

variable {e e' : Expression} {c : Char} {cs close : List Char}

/-! ## Texts of expressions -/

theorem leading?_text_nil (h : e.Formed) : leading? e.text = some (e, []) := by
  have hread := leading?_text h follows_nil
  rwa [List.append_nil] at hread

theorem Formed.eq_of_text (h : e.Formed) (h' : e'.Formed) (htext : e.text = e'.text) : e = e' := by
  have hread := leading?_text_nil h
  rw [htext, leading?_text_nil h'] at hread
  exact (Prod.mk.inj (Option.some.inj hread)).1.symm

/-- The longest expression whose text is such. -/
structure Longest (P : List Char → Prop) (e : Expression) : Prop where
  formed : e.Formed
  text : P e.text
  longest : ∀ e' : Expression, e'.Formed → P e'.text → e'.text.length ≤ e.text.length

theorem eq_some_iff_longest {P : List Char → Prop} {found? : Option Expression}
    (hsound : ∀ e, found? = some e → e.Formed ∧ P e.text)
    (hcomplete : ∀ e : Expression, e.Formed → P e.text → ∃ found, found? = some found ∧ e.text.Sublist found.text) :
    found? = some e ↔ Longest P e := by
  constructor
  · intro h
    obtain ⟨hformed, htext⟩ := hsound e h
    refine ⟨hformed, htext, fun e' hformed' htext' => ?_⟩
    obtain ⟨found, hfound, hlonger⟩ := hcomplete e' hformed' htext'
    rw [h] at hfound
    obtain rfl := Option.some.inj hfound
    exact hlonger.length_le
  · rintro ⟨hformed, htext, hlongest⟩
    obtain ⟨found, hfound, hlonger⟩ := hcomplete e hformed htext
    obtain ⟨hformed', htext'⟩ := hsound found hfound
    rw [hformed.eq_of_text hformed' (hlonger.eq_of_length_le (hlongest found hformed' htext')), hfound]

/-! ## At the start of a text -/

/-- The longest expression that a text starts with. -/
def Starts (e : Expression) (cs : List Char) : Prop := Longest (· <+: cs) e

theorem prefix_modifierOf (h : Modifier cs) (rest : List Char) : cs <+: (modifierOf (cs ++ rest)).1 := by
  cases h with
  | absent => exact List.nil_prefix
  | @written sign digits hsign hne hdigits =>
    have hrun : (digits ++ rest).takeWhile isDigit = digits ++ rest.takeWhile isDigit :=
      List.takeWhile_append_of_pos hdigits
    rw [List.cons_append, modifierOf, if_pos (by simp [hsign, hrun, hne]), hrun]
    exact ⟨_, rfl⟩

theorem explodingOf_tail {exploding : Bool} (h : Modifier cs) (hbare : ¬ (exploding = false ∧ cs = []))
    (rest : List Char) :
    (∀ c ∈ ((if exploding then ['x'] else []) ++ (cs ++ rest)).head?, isDigit c = false) ∧
      explodingOf ((if exploding then ['x'] else []) ++ (cs ++ rest)) = (exploding, cs ++ rest) := by
  cases exploding with
  | true => exact ⟨fun c hc => by obtain rfl := Option.some.inj hc; decide, rfl⟩
  | false =>
    cases h with
    | absent => simp at hbare
    | written hsign =>
      refine ⟨?_, explodingOf_append false ?_⟩
      · intro c hc
        obtain rfl := Option.some.inj hc
        rcases hsign with rfl | rfl <;> decide
      · rcases hsign with rfl | rfl <;> simp

theorem leading?_of_sides {count behind : List Char} (hcount : ∀ c ∈ count, isDigit c = true)
    (hsides : behind.takeWhile isDigit ≠ []) :
    leading? (count ++ 'd' :: behind) =
      let marked := explodingOf (behind.dropWhile isDigit)
      let modified := modifierOf marked.2
      some (⟨count, behind.takeWhile isDigit, marked.1, modified.1⟩, modified.2) := by
  have hd : ∀ c ∈ ('d' :: behind).head?, isDigit c = false := by
    intro c hc
    obtain rfl := Option.some.inj hc
    decide
  rw [leading?, dropWhile_run hd hcount, takeWhile_run hd hcount]
  exact if_neg (by simpa using hsides)

theorem leading?_append (h : e.Formed) (rest : List Char) :
    ∃ e' rest', leading? (e.text ++ rest) = some (e', rest') ∧ e.text <+: e'.text := by
  have hsides (tail : List Char) : (e.sides ++ tail).takeWhile isDigit = e.sides ++ tail.takeWhile isDigit :=
    List.takeWhile_append_of_pos h.sides
  rw [text_append, leading?_of_sides h.count (by simp [hsides, h.sides_ne])]
  refine ⟨_, _, rfl, ?_⟩
  by_cases hbare : e.exploding = false ∧ e.modifier = []
  · -- More digits may follow, and then more parts.
    rw [hsides]
    simp [text, hbare.1, hbare.2, List.prefix_append_right_inj, List.append_assoc]
  · -- Something else than a digit stands behind the sides, so they are read as they are.
    obtain ⟨hmark, hmarked⟩ := explodingOf_tail h.modifier hbare rest
    rw [takeWhile_run hmark h.sides, dropWhile_run hmark h.sides, hmarked]
    simpa [text, List.prefix_append_right_inj] using prefix_modifierOf h.modifier rest

theorem leading?_eq_some_iff : (leading? cs).map Prod.fst = some e ↔ e.Starts cs := by
  refine eq_some_iff_longest (fun e h => ?_) ?_
  · obtain ⟨⟨found, rest⟩, hread, rfl⟩ := Option.map_eq_some_iff.mp h
    obtain ⟨hformed, hcs⟩ := leading?_sound hread
    exact ⟨hformed, rest, hcs.symm⟩
  · rintro e hformed ⟨rest, rfl⟩
    obtain ⟨found, more, hread, hlonger⟩ := leading?_append hformed rest
    exact ⟨found, by rw [hread, Option.map_some], hlonger.sublist⟩

theorem leading?_eq_none_iff : leading? cs = none ↔ ∀ e : Expression, ¬ e.Starts cs := by
  simp only [← leading?_eq_some_iff]
  cases leading? cs <;> simp

/-! ## In front of another letter -/

/-- No expression holds such a letter. -/
def Foreign (c : Char) : Prop := isDigit c = false ∧ c ∉ ['d', 'x', '+', '-']

theorem foreign_close : Foreign '}' := ⟨by decide, by decide⟩

theorem not_mem_of_foreign (h : e.Formed) (hc : Foreign c) : c ∉ e.text := by
  intro hmem
  rcases mem_text h hmem with hdigit | hletter
  · rw [hc.1] at hdigit
    cases hdigit
  · exact hc.2 hletter

theorem prefix_append_foreign (h : e.Formed) (hc : Foreign c) (cs rest : List Char) :
    e.text <+: cs ++ c :: rest ↔ e.text <+: cs := by
  refine ⟨fun htext => ?_, fun htext => htext.trans (List.prefix_append cs _)⟩
  rcases List.prefix_or_prefix_of_prefix htext (List.prefix_append cs (c :: rest)) with hshort | ⟨more, hmore⟩
  · exact hshort
  · rw [← hmore, List.prefix_append_right_inj] at htext
    cases more with
    | nil => simp [← hmore]
    | cons c' more =>
      obtain ⟨rfl, -⟩ := List.cons_prefix_cons.mp htext
      exact absurd (by simp [← hmore]) (not_mem_of_foreign h hc)

theorem starts_append_foreign (hc : Foreign c) (cs rest : List Char) : e.Starts (cs ++ c :: rest) ↔ e.Starts cs := by
  constructor
  · rintro ⟨hformed, hfront, hlongest⟩
    refine ⟨hformed, (prefix_append_foreign hformed hc cs rest).mp hfront, fun e' h' hfront' => ?_⟩
    exact hlongest e' h' ((prefix_append_foreign h' hc cs rest).mpr hfront')
  · rintro ⟨hformed, hfront, hlongest⟩
    refine ⟨hformed, (prefix_append_foreign hformed hc cs rest).mpr hfront, fun e' h' hfront' => ?_⟩
    exact hlongest e' h' ((prefix_append_foreign h' hc cs rest).mp hfront')

theorem leading?_append_foreign (hc : Foreign c) (cs rest : List Char) :
    leading? (cs ++ c :: rest) = (leading? cs).map fun (e, more) => (e, more ++ c :: rest) := by
  cases hread : leading? cs with
  | none =>
    rw [leading?_eq_none_iff] at hread
    exact leading?_eq_none_iff.mpr fun e he => hread e ((starts_append_foreign hc cs rest).mp he)
  | some found =>
    obtain ⟨e, more⟩ := found
    have hstarts : e.Starts cs := leading?_eq_some_iff.mp (by rw [hread, Option.map_some])
    obtain ⟨⟨e', more'⟩, hread', rfl⟩ :=
      Option.map_eq_some_iff.mp (leading?_eq_some_iff.mpr ((starts_append_foreign hc cs rest).mpr hstarts))
    have hcs := (leading?_sound hread').2
    rw [(leading?_sound hread).2, List.append_assoc, List.append_cancel_left_eq] at hcs
    rw [hread', ← hcs]
    rfl

theorem text_ne_concat (h : e.Formed) (cs : List Char) : e.text ≠ cs ++ ['d'] := by
  intro htext
  have hne : e.sides ++ ((if e.exploding then ['x'] else []) ++ e.modifier) ≠ [] := by simp [h.sides_ne]
  obtain ⟨before, last, hsplit⟩ :
      ∃ before last, e.sides ++ ((if e.exploding then ['x'] else []) ++ e.modifier) = before ++ [last] :=
    ⟨_, _, (List.dropLast_concat_getLast hne).symm⟩
  have hlast : last ∈ e.sides ++ ((if e.exploding then ['x'] else []) ++ e.modifier) := by simp [hsplit]
  have hconcat : e.text = e.count ++ 'd' :: before ++ [last] := by
    rw [List.append_assoc, List.cons_append, ← hsplit]
    simp [text]
  rw [hconcat] at htext
  obtain rfl := (List.cons.inj (List.append_inj' htext rfl).2).1
  simp only [List.mem_append] at hlast
  rcases hlast with hsides | hmark | hmodifier
  · exact absurd (h.sides _ hsides) (by decide)
  · split at hmark <;> simp at hmark
  · exact absurd (mem_modifier h.modifier hmodifier) (by decide)

/-! ## At the end of a text -/

/-- The longest expression that a text ends with. -/
def Ends (e : Expression) (cs : List Char) : Prop := Longest (· <:+ cs) e

theorem before?_sound (h : before? close cs = some e) : e.Formed ∧ ∃ front, cs = front ++ (e.text ++ close) := by
  fun_induction before? close cs with
  | case1 => cases h
  | case2 c cs found hread =>
    obtain ⟨hformed, hcs⟩ := leading?_sound hread
    obtain rfl := Option.some.inj h
    exact ⟨hformed, [], hcs⟩
  | case3 c cs found rest hread _ ih =>
    obtain ⟨hformed, front, rfl⟩ := ih h
    exact ⟨hformed, c :: front, rfl⟩
  | case4 c cs _ ih =>
    obtain ⟨hformed, front, rfl⟩ := ih h
    exact ⟨hformed, c :: front, rfl⟩

theorem before?_append (h : e.Formed) (hclose : Follows close) (front : List Char) :
    ∃ e', before? close (front ++ (e.text ++ close)) = some e' ∧ e.text <:+ e'.text := by
  induction front with
  | nil => exact ⟨e, before?_text h hclose, List.suffix_rfl⟩
  | cons c front ih =>
    rw [List.cons_append, before?]
    split
    next found rest hread =>
      split
      next hrest =>
        -- The longer one ends where `e` ends, and it starts further in front.
        obtain ⟨-, hcs⟩ := leading?_sound hread
        rw [hrest, ← List.append_assoc, ← List.cons_append, List.append_cancel_right_eq] at hcs
        exact ⟨found, rfl, ⟨c :: front, hcs⟩⟩
      next => exact ih
    next => exact ih

theorem before?_eq_some_iff (hclose : Follows close) : before? close (cs ++ close) = some e ↔ e.Ends cs := by
  refine eq_some_iff_longest (fun e hread => ?_) ?_
  · obtain ⟨hformed, front, hcs⟩ := before?_sound hread
    rw [← List.append_assoc, List.append_cancel_right_eq] at hcs
    exact ⟨hformed, front, hcs.symm⟩
  · rintro e hformed ⟨front, rfl⟩
    obtain ⟨found, hread, hlonger⟩ := before?_append hformed hclose front
    rw [← List.append_assoc] at hread
    exact ⟨found, hread, hlonger.sublist⟩

/-! ## Reading again -/

theorem first?_text_append (h : e.Formed) {rest : List Char} (hrest : Follows rest) :
    first? (e.text ++ rest) = some e := by
  have hread := leading?_text h hrest
  cases htext : e.text with
  | nil => simp [text] at htext
  | cons c cs =>
    rw [htext] at hread
    rw [List.cons_append, first?, ← List.cons_append, hread]

theorem parse_text (h : e.Formed) :
    parse (String.ofList e.text) =
      match e.dice? with
      | some d => .ok d
      | none => .error (.malformed (String.ofList e.text)) := by
  have hfirst := first?_text_append h follows_nil
  rw [List.append_nil] at hfirst
  cases hdice : e.dice? <;> simp [parse, hfirst, hdice]

/-- A number of the expression has no value, or one that is out of range. Only ASCII digits have a value. -/
inductive Bad (e : Expression) : Prop where
  | count (hne : e.count ≠ []) (h : ¬ ∃ n < 0x100000000, Text.digits? e.count = some n)
  | sides (h : ¬ ∃ n < 0x100000000, Text.digits? e.sides = some n)
  | zero (h : Text.digits? e.sides = some 0)
  | modifier (hne : e.modifier ≠ []) (h : ¬ ∃ n, Text.InRange n ∧ Text.signed? e.modifier = some n)

theorem countOf?_eq_none (h : e.Formed) :
    e.countOf? = none ↔ e.count ≠ [] ∧ ¬ ∃ n < 0x100000000, Text.digits? e.count = some n := by
  unfold countOf?
  split
  next hnone => simp [List.isEmpty_iff.mp hnone]
  next hne =>
    rw [List.isEmpty_iff] at hne
    simp [Text.count?_eq_none h.count, hne]

theorem addedOf?_eq_none (e : Expression) :
    e.addedOf? = none ↔ e.modifier ≠ [] ∧ ¬ ∃ n, Text.InRange n ∧ Text.signed? e.modifier = some n := by
  unfold addedOf?
  split
  next hnone => simp [List.isEmpty_iff.mp hnone]
  next hne =>
    rw [List.isEmpty_iff] at hne
    simp [Text.integer?_eq_none, hne]

theorem dice?_eq_none_iff (h : e.Formed) : e.dice? = none ↔ e.Bad := by
  rw [dice?_eq]
  constructor
  · intro hnone
    cases hcount : e.countOf? with
    | none =>
      obtain ⟨hne, hbad⟩ := (countOf?_eq_none h).mp hcount
      exact .count hne hbad
    | some count =>
      cases hsides : Text.count? e.sides with
      | none => exact .sides ((Text.count?_eq_none h.sides).mp hsides)
      | some sides =>
        cases hmodifier : e.addedOf? with
        | none =>
          obtain ⟨hne, hbad⟩ := (addedOf?_eq_none e).mp hmodifier
          exact .modifier hne hbad
        | some modifier =>
          rw [hcount, hsides, hmodifier] at hnone
          simp only [Option.bind_some, ite_eq_left_iff, reduceCtorEq, imp_false, Decidable.not_not] at hnone
          rw [hnone] at hsides
          exact .zero ((Text.count?_eq_some h.sides).mp hsides).1
  · rintro (⟨hne, hbad⟩ | hbad | hzero | ⟨hne, hbad⟩)
    · rw [(countOf?_eq_none h).mpr ⟨hne, hbad⟩]
      rfl
    · rw [(Text.count?_eq_none h.sides).mpr hbad]
      cases e.countOf? <;> rfl
    · rw [Text.count?_of_digits? hzero (by decide)]
      cases e.countOf? <;> cases e.addedOf? <;> rfl
    · rw [(addedOf?_eq_none e).mpr ⟨hne, hbad⟩]
      cases e.countOf? <;> cases Text.count? e.sides <;> rfl

end Tabletop.Dice.Expression
