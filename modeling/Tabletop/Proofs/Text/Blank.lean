import Tabletop.Text.Blank

/-!
# Trimming

Cutting the blanks off the ends of a text takes nothing else away.
-/

namespace Tabletop.Text

variable {c : Char} {cs : List Char}

theorem mem_of_mem_trim (h : c ∈ trim cs) : c ∈ cs := by
  rw [trim, List.mem_reverse] at h
  have := (List.dropWhile_sublist _).subset h
  rw [List.mem_reverse] at this
  exact (List.dropWhile_sublist _).subset this

theorem trim_eq_self_of_ends (hhead : ∀ c ∈ cs.head?, isBlank c = false)
    (hlast : ∀ c ∈ cs.getLast?, isBlank c = false) : trim cs = cs := by
  have keep (l : List Char) (hl : ∀ c ∈ l.head?, isBlank c = false) : l.dropWhile isBlank = l := by
    cases l with
    | nil => rfl
    | cons c l => simp [hl c rfl]
  rw [trim, keep cs hhead, keep cs.reverse (by simpa using hlast), List.reverse_reverse]

theorem trim_eq_self (h : ∀ c ∈ cs, isBlank c = false) : trim cs = cs := by
  refine trim_eq_self_of_ends (fun c hc => h c ?_) fun c hc => h c ?_
  · exact List.mem_of_head? hc
  · exact List.mem_of_getLast? hc

theorem trim_append_blank (h : isBlank c = true) : trim (cs ++ [c]) = trim cs := by
  unfold trim
  rw [List.dropWhile_append]
  split
  next hempty =>
    rw [List.isEmpty_iff] at hempty
    simp [hempty, h]
  next => simp [h]

end Tabletop.Text
