/-!
# Search and replacement

Finding a pattern in a text and writing something else in its place.
-/

namespace Tabletop.Text

theorem isPrefixOf?_cons_cons (p c : Char) (pattern cs : List Char) :
    (p :: pattern).isPrefixOf? (c :: cs) = if p == c then pattern.isPrefixOf? cs else none := rfl

theorem isPrefixOf?_eq_some {pattern text after : List Char}
    (h : pattern.isPrefixOf? text = some after) : text = pattern ++ after := by
  induction pattern generalizing text with
  | nil => exact Option.some.inj h
  | cons p pattern ih =>
    cases text with
    | nil => cases h
    | cons c cs =>
      rw [isPrefixOf?_cons_cons] at h
      split at h
      next hpc => rw [beq_iff_eq.mp hpc, ih h, List.cons_append]
      next => cases h

/-- The text before and after the first place where `pattern` stands. -/
def around? (pattern : List Char) : List Char → Option (List Char × List Char)
  | [] => if pattern.isEmpty then some ([], []) else none
  | c :: cs =>
    match pattern.isPrefixOf? (c :: cs) with
    | some after => some ([], after)
    | none => (around? pattern cs).map fun (before, after) => (c :: before, after)

theorem eq_of_around? {pattern text before after : List Char}
    (h : around? pattern text = some (before, after)) : text = before ++ pattern ++ after := by
  fun_induction around? pattern text generalizing before after with
  | case1 => simp_all
  | case2 => simp at h
  | case3 c cs rest hp =>
    obtain ⟨rfl, rfl⟩ : [] = before ∧ rest = after := by simpa using h
    simpa using isPrefixOf?_eq_some hp
  | case4 c cs hp ih =>
    obtain ⟨⟨b, a⟩, hab, he⟩ := Option.map_eq_some_iff.mp h
    obtain ⟨rfl, rfl⟩ : c :: b = before ∧ a = after := by simpa using he
    simp [ih hab]

/-- Writes `new` over the first `pattern`, if there is one. -/
def replaceFirst? (pattern new text : List Char) : Option (List Char) :=
  (around? pattern text).map fun (before, after) => before ++ new ++ after

/-- Writes `new` over every `->`. -/
def replaceArrows (new : List Char) : List Char → List Char
  | '-' :: '>' :: cs => new ++ replaceArrows new cs
  | c :: cs => c :: replaceArrows new cs
  | [] => []

end Tabletop.Text
