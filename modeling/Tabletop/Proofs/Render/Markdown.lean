import Mathlib.Data.List.Forall2
import Tabletop.Proofs.Placeholder.Tokens
import Tabletop.Proofs.Text.Integer
import Tabletop.Render.Standard

/-!
# Tokens in Markdown

The tokens in the plain Markdown text of an entity are those of the values shown, in the order in which
they are shown. What stands around the values opens no token.
-/

namespace Tabletop

open Placeholder (Closed tokens)

theorem Table.Key.not_mem_text (k : Table.Key) : '{' ∉ k.text.toList := by
  have hnumber (n : Int) : '{' ∉ (toString n).toList := Text.not_mem_toString_int (by decide) (by decide) n
  unfold text
  split
  · exact hnumber _
  · rw [String.toList_append, String.toList_append, List.mem_append, List.mem_append]
    rintro ((h | h) | h)
    · exact hnumber _ h
    · revert h
      decide
    · exact hnumber _ h

/-! ## Texts that show values -/

/-- The text has the tokens of these values, in order, and closes all that it opens. -/
structure Shows (text : String) (values : List String) : Prop where
  closed : Closed text.toList
  tokens_eq : tokens text.toList = values.flatMap fun v => tokens v.toList

namespace Shows

variable {a b text : String} {va vb values : List String}

theorem value (h : Closed text.toList) : Shows text [text] := ⟨h, by simp⟩

theorem frame (text : String) (h : '{' ∉ text.toList) : Shows text [] :=
  ⟨Placeholder.closed_of_not_mem h, by rw [Placeholder.tokens_of_not_mem h]; rfl⟩

theorem append (ha : Shows a va) (hb : Shows b vb) : Shows (a ++ b) (va ++ vb) := by
  refine ⟨?_, ?_⟩
  · rw [String.toList_append]
    exact ha.closed.append hb.closed
  · rw [String.toList_append, Placeholder.tokens_append _ ha.closed, ha.tokens_eq, hb.tokens_eq,
      List.flatMap_append]

theorem framed (start stop : String) (hstart : '{' ∉ start.toList) (h : Shows text values)
    (hstop : '{' ∉ stop.toList) : Shows (start ++ text ++ stop) values := by
  have := ((frame start hstart).append h).append (frame stop hstop)
  rwa [List.nil_append, List.append_nil] at this

theorem join {texts : List String} {parts : List (List String)} (h : List.Forall₂ Shows texts parts) :
    Shows (String.join texts) parts.flatten := by
  induction h with
  | nil =>
    rw [String.join_nil]
    exact frame _ (by decide)
  | cons htext _ ih =>
    rw [String.join_cons, List.flatten_cons]
    exact htext.append ih

end Shows

/-! ## The parts of an entity -/

namespace Markdown

theorem items_shows {l : List String} (h : ∀ v ∈ l, Closed v.toList) : Shows (items l) l := by
  unfold items
  induction l with
  | nil =>
    rw [String.intercalate_nil]
    exact .frame _ (by decide)
  | cons v l ih =>
    rw [List.forall_mem_cons] at h
    cases l with
    | nil =>
      rw [String.intercalate_singleton]
      exact .value h.1
    | cons w l =>
      rw [String.intercalate_cons_cons]
      have hfirst := Shows.framed "" ", " (by decide) (.value h.1) (by decide)
      rw [String.empty_append] at hfirst
      exact hfirst.append (ih h.2)

theorem line_shows {start text stop : String} {values : List String} (hstart : '{' ∉ start.toList)
    (h : Shows text values) (hstop : '{' ∉ stop.toList) : Shows (line start text stop) values := by
  unfold line
  split
  next hempty =>
    rw [String.isEmpty_iff] at hempty
    rwa [hempty] at h
  next =>
    have := (Shows.framed start stop hstart h hstop).append (.frame "  \n" (by decide))
    rwa [List.append_nil] at this

theorem plain_shows {text : String} {shown : List String} (h : Shows text shown) :
    Shows (plain text) shown :=
  line_shows (by decide) h (by decide)

theorem labelled_shows {label text : String} {shown : List String} (hlabel : '{' ∉ label.toList)
    (h : Shows text shown) : Shows (labelled label text) shown := by
  refine line_shows ?_ h (by decide)
  rw [String.toList_append, String.toList_append, List.mem_append, List.mem_append]
  rintro ((h | h) | h)
  · revert h
    decide
  · exact hlabel h
  · revert h
    decide

theorem row_shows {key : Table.Key} {outcome : String} (h : Closed outcome.toList) :
    Shows (row key outcome) [outcome] := by
  unfold row
  have hkey : Shows ("\n| " ++ key.text ++ " | ") [] :=
    Shows.framed _ _ (by decide) (.frame _ key.not_mem_text) (by decide)
  have := (hkey.append (.value h)).append (.frame " |  " (by decide))
  rwa [List.nil_append, List.append_nil] at this

def tableTexts (t : Table) : List String := t.roll.toList ++ t.outcomes.map Prod.snd

theorem table_shows {t : Table} (h : ∀ v ∈ tableTexts t, Closed v.toList) :
    Shows (table t) (tableTexts t) := by
  unfold tableTexts at h ⊢
  rw [List.forall_mem_append] at h
  unfold table
  have hrows : Shows (String.join (t.outcomes.map fun entry => row entry.1 entry.2))
      (t.outcomes.map Prod.snd) := by
    have hparts : (t.outcomes.map fun entry => [entry.2]).flatten = t.outcomes.map Prod.snd := by
      induction t.outcomes <;> simp_all
    rw [← hparts]
    refine .join ?_
    rw [List.forall₂_map_left_iff, List.forall₂_map_right_iff, List.forall₂_same]
    exact fun entry hentry => row_shows (h.2 entry.2 (List.mem_map_of_mem hentry))
  have hframe {advice : String} {rolls : List String} (hadvice : Shows advice rolls) :
      Shows ("  \n\n" ++ advice ++ "\n\n| Roll | Outcome |  \n| --- | --- |" ++
        String.join (t.outcomes.map fun entry => row entry.1 entry.2) ++ "\n")
        (rolls ++ t.outcomes.map Prod.snd) := by
    have hhead := Shows.framed "  \n\n" "\n\n| Roll | Outcome |  \n| --- | --- |" (by decide) hadvice
      (by decide)
    have := (hhead.append hrows).append (.frame "\n" (by decide))
    rwa [List.append_nil] at this
  cases hroll : t.roll with
  | none => exact hframe (.frame "" (by decide))
  | some roll =>
    exact hframe (.framed _ _ (by decide) (.value (h.1 roll (by simp [hroll]))) (by decide))

def sectionTexts (options : RenderOptions) (e : Entity) : List String :=
  if options.skipTable then [] else (e.table.map tableTexts).getD []

def longTexts (options : RenderOptions) (e : Entity) : List String :=
  if options.includeFullText then [e.fullText] else []

theorem tableSection_shows {options : RenderOptions} {e : Entity}
    (h : ∀ v ∈ sectionTexts options e, Closed v.toList) :
    Shows (tableSection e options) (sectionTexts options e) := by
  unfold sectionTexts at h ⊢
  unfold tableSection
  cases htable : e.table with
  | none =>
    rw [Option.map_none, Option.getD_none, ite_self]
    exact .frame "" (by decide)
  | some t =>
    rw [htable] at h
    cases hskip : options.skipTable with
    | true => exact .frame "" (by decide)
    | false =>
      rw [hskip] at h
      exact plain_shows (table_shows h)

theorem fullText_shows {options : RenderOptions} {e : Entity}
    (h : ∀ v ∈ longTexts options e, Closed v.toList) :
    Shows (fullText e options) (longTexts options e) := by
  unfold longTexts at h ⊢
  unfold fullText
  split
  next hfull =>
    rw [if_pos hfull, List.forall_mem_singleton] at h
    exact line_shows (by decide) (.value h) (by decide)
  next => exact .frame _ (by decide)

/-- The values of an entity that are shown, in order. -/
def values (options : RenderOptions) (e : Entity) : List String :=
  List.flatten [[e.name], [e.hp], e.scores, e.skills, [e.holds], e.tags, e.requirements, e.cost,
    [e.speed], [e.target], [e.toHit], e.attacks, [e.effect], sectionTexts options e,
    [e.flavorText], longTexts options e, [e.encumbrance]]

theorem entity_shows {options : RenderOptions} {e : Entity} (h : ∀ v ∈ values options e, Closed v.toList) :
    Shows (entity options e) (values options e) := by
  have hpart : ∀ part ∈ [[e.name], [e.hp], e.scores, e.skills, [e.holds], e.tags, e.requirements,
      e.cost, [e.speed], [e.target], [e.toHit], e.attacks, [e.effect], sectionTexts options e,
      [e.flavorText], longTexts options e, [e.encumbrance]], ∀ v ∈ part, Closed v.toList :=
    fun part hpart v hv => h v (List.mem_flatten.mpr ⟨part, hpart, hv⟩)
  simp only [List.forall_mem_cons] at hpart
  obtain ⟨⟨hname, -⟩, ⟨hhp, -⟩, hscores, hskills, ⟨hholds, -⟩, htags, hrequirements, hcost,
    ⟨hspeed, -⟩, ⟨htarget, -⟩, ⟨htoHit, -⟩, hattacks, ⟨heffect, -⟩, htable, ⟨hflavor, -⟩, hfull,
    ⟨hencumbrance, -⟩, -⟩ := hpart
  refine .join ?_
  simp only [List.forall₂_cons, List.forall₂_nil_left_iff, and_true]
  exact ⟨line_shows (by decide) (.value hname) (by decide), labelled_shows (by decide) (.value hhp),
    labelled_shows (by decide) (items_shows hscores), labelled_shows (by decide) (items_shows hskills),
    labelled_shows (by decide) (.value hholds), labelled_shows (by decide) (items_shows htags),
    labelled_shows (by decide) (items_shows hrequirements),
    labelled_shows (by decide) (items_shows hcost), labelled_shows (by decide) (.value hspeed),
    labelled_shows (by decide) (.value htarget), labelled_shows (by decide) (.value htoHit),
    plain_shows (items_shows hattacks), plain_shows (.value heffect), tableSection_shows htable,
    line_shows (by decide) (.value hflavor) (by decide), fullText_shows hfull,
    labelled_shows (by decide) (.value hencumbrance)⟩

theorem outcome_shows {text : String} (h : Closed text.toList) : Shows (outcome text) [text] :=
  .framed _ _ (by decide) (.value h) (by decide)

end Markdown

/-! ## Plain text -/

theorem Escape.fields_id (e : Entity) : Escape.fields id e = e := by
  simp [Escape.fields]

namespace Renderer

theorem standard_entity_plain {options : RenderOptions} (hformat : options.format = .markdown)
    (hescaped : options.escaped = false) (e : Entity) :
    standard.entity options e = Markdown.entity options e := by
  have hescape : options.escape = id := by simp [RenderOptions.escape, hformat, hescaped]
  simp only [standard, standardEntity, hescape, Escape.fields_id, hformat]

theorem standard_outcome_plain {options : RenderOptions} (hformat : options.format = .markdown)
    (hescaped : options.escaped = false) (text : String) :
    standard.outcome options text = Markdown.outcome text := by
  have hescape : options.escape = id := by simp [RenderOptions.escape, hformat, hescaped]
  simp only [standard, standardOutcome, hescape, hformat, id]

end Renderer

end Tabletop
