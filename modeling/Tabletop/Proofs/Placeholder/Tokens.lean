import Tabletop.Placeholder.Token

/-!
# Texts and their tokens

A text that closes its braces can be read on its own: what stands behind it does not change its tokens.
-/

namespace Tabletop.Placeholder

/-! ## Braces -/

/-- Every opening brace has a closing brace somewhere behind it. -/
def Closed : List Char → Prop
  | [] => True
  | c :: cs => (c = '{' → '}' ∈ cs) ∧ Closed cs

/-- Every opening brace has a closing brace behind it, before another one opens. -/
def Paired : List Char → Prop
  | [] => True
  | c :: cs => (c = '{' → '}' ∈ cs.takeWhile (· ≠ '{')) ∧ Paired cs

instance decidableClosed : DecidablePred Closed
  | [] => .isTrue trivial
  | c :: cs =>
    have := decidableClosed cs
    inferInstanceAs (Decidable ((c = '{' → '}' ∈ cs) ∧ Closed cs))

instance decidablePaired : DecidablePred Paired
  | [] => .isTrue trivial
  | c :: cs =>
    have := decidablePaired cs
    inferInstanceAs (Decidable ((c = '{' → '}' ∈ cs.takeWhile (· ≠ '{')) ∧ Paired cs))

theorem Paired.closed {cs : List Char} (h : Paired cs) : Closed cs := by
  induction cs with
  | nil => trivial
  | cons c cs ih =>
    exact ⟨fun hc => (List.takeWhile_sublist _).subset (h.1 hc), ih h.2⟩

theorem closed_of_not_mem {cs : List Char} (h : '{' ∉ cs) : Closed cs := by
  induction cs with
  | nil => trivial
  | cons c cs ih =>
    rw [List.mem_cons, not_or] at h
    exact ⟨fun hc => absurd hc.symm h.1, ih h.2⟩

theorem Closed.append {a b : List Char} (ha : Closed a) (hb : Closed b) : Closed (a ++ b) := by
  induction a with
  | nil => exact hb
  | cons c a ih => exact ⟨fun hc => List.mem_append_left b (ha.1 hc), ih ha.2⟩

/-! ## Reading one text after another -/

theorem piecesAfter_append {held a : List Char} (b : List Char) (ha : Closed a)
    (hheld : held ≠ [] → '}' ∈ a) :
    piecesAfter held (a ++ b) = piecesAfter held a ++ piecesAfter [] b := by
  fun_induction piecesAfter held a with
  | case1 held =>
    cases held with
    | nil => rfl
    | cons h held => simp at hheld
  | case2 cs ih =>
    rw [List.cons_append, piecesAfter, if_pos rfl, ih ha.2 fun _ => ha.1 rfl]
  | case3 c cs hc ih =>
    rw [List.cons_append, piecesAfter, if_neg hc, ih ha.2 (by simp), List.cons_append]
  | case4 h held cs ih =>
    rw [List.cons_append, piecesAfter, if_pos rfl, ih ha.2 (by simp), List.cons_append]
  | case5 h held c cs hc ih =>
    have hmem : '}' ∈ cs := by simpa [Ne.symm hc] using hheld (by simp)
    rw [List.cons_append, piecesAfter, if_neg hc, ih ha.2 fun _ => hmem]

theorem tokens_append {a : List Char} (b : List Char) (ha : Closed a) :
    tokens (a ++ b) = tokens a ++ tokens b := by
  simp only [tokens, pieces]
  rw [piecesAfter_append b ha (by simp), List.filterMap_append]

theorem tokens_of_not_mem {cs : List Char} (h : '{' ∉ cs) : tokens cs = [] := by
  induction cs with
  | nil => rfl
  | cons c cs ih =>
    rw [List.mem_cons, not_or] at h
    have := ih h.2
    simp only [tokens, pieces] at this ⊢
    rw [piecesAfter, if_neg (Ne.symm h.1)]
    simpa [Piece.token?] using this

theorem piecesAfter_close {held inside : List Char} (cs : List Char) (hheld : held ≠ [])
    (hinside : '}' ∉ inside) :
    piecesAfter held (inside ++ '}' :: cs) =
      .token (held.reverse ++ inside ++ ['}']) :: piecesAfter [] cs := by
  induction inside generalizing held with
  | nil =>
    obtain ⟨h, held, rfl⟩ := List.exists_cons_of_ne_nil hheld
    rw [List.nil_append, piecesAfter, if_pos rfl, List.append_nil, List.reverse_cons]
  | cons c inside ih =>
    rw [List.mem_cons, not_or] at hinside
    obtain ⟨h, held, rfl⟩ := List.exists_cons_of_ne_nil hheld
    rw [List.cons_append, piecesAfter, if_neg (Ne.symm hinside.1), ih (by simp) hinside.2]
    simp

theorem tokens_braced {inside : List Char} (hinside : '}' ∉ inside) :
    tokens ('{' :: inside ++ ['}']) = ['{' :: inside ++ ['}']] := by
  rw [tokens, pieces, List.cons_append, piecesAfter, if_pos rfl,
    piecesAfter_close [] (by simp) hinside]
  rfl

/-! ## Pieces of any text -/

/-- A letter that opens nothing, or a token up to its closing brace. -/
def Piece.Braced : Piece → Prop
  | .letter c => c ≠ '{'
  | .token cs => ∃ inside, cs = '{' :: inside ++ ['}'] ∧ '}' ∉ inside

theorem piecesAfter_braced {held cs : List Char}
    (hheld : held = [] ∨ ∃ inside, held = inside ++ ['{'] ∧ '}' ∉ inside) :
    ∃ (closed : List Piece) (rest : List Char), piecesAfter held cs = closed ++ rest.map .letter ∧
      (∀ piece ∈ closed, piece.Braced) ∧ '}' ∉ rest := by
  fun_induction piecesAfter held cs with
  | case1 held =>
    refine ⟨[], held.reverse, rfl, by simp, ?_⟩
    rcases hheld with rfl | ⟨inside, rfl, hclose⟩
    · simp
    · simp [hclose]
  | case2 cs ih => exact ih (.inr ⟨[], rfl, by simp⟩)
  | case3 c cs hc ih =>
    obtain ⟨closed, rest, hpieces, hclosed, hrest⟩ := ih (.inl rfl)
    refine ⟨.letter c :: closed, rest, by rw [hpieces, List.cons_append], ?_, hrest⟩
    exact List.forall_mem_cons.mpr ⟨hc, hclosed⟩
  | case4 h held cs ih =>
    obtain ⟨inside, hinside, hclose⟩ := hheld.resolve_left (by simp)
    obtain ⟨closed, rest, hpieces, hclosed, hrest⟩ := ih (.inl rfl)
    refine ⟨_ :: closed, rest, by rw [hpieces, List.cons_append], ?_, hrest⟩
    refine List.forall_mem_cons.mpr ⟨⟨inside.reverse, ?_, by simpa using hclose⟩, hclosed⟩
    rw [List.reverse_cons, hinside]
    simp
  | case5 h held c cs hc ih =>
    obtain ⟨inside, hinside, hclose⟩ := hheld.resolve_left (by simp)
    refine ih (.inr ⟨c :: inside, ?_, ?_⟩)
    · rw [hinside, List.cons_append]
    · simp [hclose, Ne.symm hc]

theorem pieces_braced (cs : List Char) :
    ∃ (closed : List Piece) (rest : List Char), pieces cs = closed ++ rest.map .letter ∧
      (∀ piece ∈ closed, piece.Braced) ∧ '}' ∉ rest :=
  piecesAfter_braced (.inl rfl)

theorem mem_of_mem_filterMap {l : List Piece} {token : List Char} (h : token ∈ l.filterMap Piece.token?) :
    .token token ∈ l := by
  obtain ⟨piece, hpiece, htoken⟩ := List.mem_filterMap.mp h
  cases piece with
  | letter c => cases htoken
  | token cs =>
    cases htoken
    exact hpiece

theorem braced_of_mem_tokens {cs token : List Char} (h : token ∈ tokens cs) :
    (Piece.token token).Braced := by
  obtain ⟨closed, rest, hpieces, hclosed, -⟩ := pieces_braced cs
  have hmem := mem_of_mem_filterMap h
  rw [hpieces, List.mem_append] at hmem
  exact hclosed _ (hmem.resolve_right (by simp))

/-! ## Pieces of a paired text -/

/-- A letter that opens nothing, or a token with no other braces than its own. -/
def Piece.Simple : Piece → Prop
  | .letter c => c ≠ '{'
  | .token cs => ∃ inside, cs = '{' :: inside ++ ['}'] ∧ '{' ∉ inside ∧ '}' ∉ inside

theorem piecesAfter_simple {held cs : List Char} (hcs : Paired cs)
    (hheld : held = [] ∨ (∃ inside, held = inside ++ ['{'] ∧ '{' ∉ inside ∧ '}' ∉ inside) ∧
      '}' ∈ cs.takeWhile (· ≠ '{')) :
    ∀ piece ∈ piecesAfter held cs, piece.Simple := by
  fun_induction piecesAfter held cs with
  | case1 held =>
    rcases hheld with rfl | ⟨-, h⟩
    · simp
    · simp at h
  | case2 cs ih =>
    exact ih hcs.2 (.inr ⟨⟨[], rfl, by simp, by simp⟩, hcs.1 rfl⟩)
  | case3 c cs hc ih =>
    rintro piece (_ | ⟨_, hpiece⟩)
    · exact hc
    · exact ih hcs.2 (.inl rfl) piece hpiece
  | case4 h held cs ih =>
    obtain ⟨inside, hinside, hopen, hclose⟩ := (hheld.resolve_left (by simp)).1
    rintro piece (_ | ⟨_, hpiece⟩)
    · refine ⟨inside.reverse, ?_, by simpa using hopen, by simpa using hclose⟩
      rw [List.reverse_cons, hinside]
      simp
    · exact ih hcs.2 (.inl rfl) piece hpiece
  | case5 h held c cs hc ih =>
    obtain ⟨⟨inside, hinside, hopen, hclose⟩, hmem⟩ := hheld.resolve_left (by simp)
    have hne : c ≠ '{' := by
      rintro rfl
      simp at hmem
    rw [List.takeWhile_cons_of_pos (by simpa using hne), List.mem_cons] at hmem
    refine ih hcs.2 (.inr ⟨⟨c :: inside, ?_, ?_, ?_⟩, hmem.resolve_left (Ne.symm hc)⟩)
    · rw [hinside, List.cons_append]
    · simp [hopen, Ne.symm hne]
    · simp [hclose, Ne.symm hc]

theorem pieces_simple {cs : List Char} (h : Paired cs) : ∀ piece ∈ pieces cs, piece.Simple :=
  piecesAfter_simple h (.inl rfl)

end Tabletop.Placeholder
