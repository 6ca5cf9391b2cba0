import Tabletop.Proofs.Entity.Rewriting
import Tabletop.Proofs.Expansion.Resolve
import Tabletop.Proofs.Render.Markdown

/-!
# Display

An entity is shown with each token replaced by what was rolled for it, in the value that holds the token
and in any format, although the tokens are read from one plain Markdown text.
-/

namespace Tabletop

open Tabletop.Random Tabletop.Placeholder

namespace Expander

variable {x : Expander} {e : Entity} {outcome : Option String} {s s' : Source}

/-! ## Shown values -/

/-- The values that are shown, in order. The outcome of a rolled table comes last. -/
def shownTexts (x : Expander) (e : Entity) (outcome : Option String) : List String :=
  (x.shownPart e outcome).texts ++ outcome.toList

theorem renderWith_shownPart (hrenderer : x.renderer = .standard) :
    x.renderWith { x.options with skipTable := outcome.isSome } (x.shownPart e outcome) outcome =
      x.renderWith { x.options with skipTable := outcome.isSome } e outcome := by
  have hentity : Renderer.standard.entity { x.options with skipTable := outcome.isSome }
      (x.shownPart e outcome) =
        Renderer.standard.entity { x.options with skipTable := outcome.isSome } e := by
    simp only [Renderer.standard, Renderer.standardEntity, shownPart, Escape.fields]
    cases outcome with
    | none =>
      cases hformat : x.options.format with
      | typeset => rfl
      | markdown =>
        cases hfull : x.options.includeFullText with
        | true => rfl
        | false =>
          simp only [Markdown.entity, Markdown.fullText]
          rfl
    | some _ =>
      cases hformat : x.options.format with
      | typeset =>
        simp only [Typeset.entity, Typeset.tableSection]
        cases e.table <;> rfl
      | markdown =>
        simp only [Markdown.entity, Markdown.fullText, Markdown.tableSection]
        cases hfull : x.options.includeFullText <;> cases e.table <;> rfl
  rw [renderWith, renderWith, hrenderer, hentity]

theorem displayText_nil (hrenderer : x.renderer = .standard) :
    x.displayText e outcome [] = x.renderWith { x.options with skipTable := outcome.isSome } e outcome := by
  have hwritten : Placeholder.substituteIn (x.shownTexts e outcome) [] = x.shownTexts e outcome := by
    simp [Placeholder.substituteIn, Function.comp_def]
  have houtcome : (outcome.map fun _ => (x.shownTexts e outcome).getLastD "") = outcome := by
    cases outcome with
    | none => rfl
    | some text => simp [shownTexts]
  calc
    x.displayText e outcome []
    _ = x.renderWith { x.options with skipTable := outcome.isSome }
          ((x.shownPart e outcome).withTexts (x.shownTexts e outcome))
          (outcome.map fun _ => (x.shownTexts e outcome).getLastD "") := by rw [← hwritten]; rfl
    _ = x.renderWith { x.options with skipTable := outcome.isSome } (x.shownPart e outcome) outcome := by
      rw [houtcome, shownTexts, Entity.withTexts_append]
    _ = x.renderWith { x.options with skipTable := outcome.isSome } e outcome := renderWith_shownPart hrenderer

/-! ## Tokens that are read -/

def readValues (x : Expander) (e : Entity) (outcome : Option String) : List String :=
  Markdown.values (x.readingOptions outcome.isSome) e ++ outcome.toList

theorem readText_shows (hrenderer : x.renderer = .standard)
    (h : ∀ v ∈ x.readValues e outcome, Closed v.toList) :
    Shows (x.readText e outcome) (x.readValues e outcome) := by
  unfold readValues at h ⊢
  rw [List.forall_mem_append] at h
  rw [readText, renderWith, hrenderer, Renderer.standard_entity_plain rfl rfl]
  refine (Markdown.entity_shows h.1).append ?_
  cases outcome with
  | none => exact .frame "" (by decide)
  | some text =>
    rw [Option.map_some, Option.getD_some, Renderer.standard_outcome_plain rfl rfl]
    exact Markdown.outcome_shows (h.2 text (by simp))

theorem shows_keptTokens {text : String} {values : List String} (h : Shows text values) :
    keptTokens text.toList = values.flatMap fun v => keptTokens v.toList := by
  rw [keptTokens, h.tokens_eq, List.filter_flatMap]
  rfl

/-- The roll of an entity's table opens no token. -/
def RollIsBare (e : Entity) : Prop := ∀ t ∈ e.table, ∀ roll ∈ t.roll, '{' ∉ roll.toList

instance (e : Entity) : Decidable (RollIsBare e) :=
  inferInstanceAs (Decidable (∀ t ∈ e.table, ∀ roll ∈ t.roll, '{' ∉ roll.toList))

theorem keptTokens_of_not_mem {cs : List Char} (h : '{' ∉ cs) : keptTokens cs = [] := by
  rw [keptTokens, tokens_of_not_mem h]
  rfl

theorem keptTokens_readValues (hroll : RollIsBare e) :
    ((x.readValues e outcome).flatMap fun v => keptTokens v.toList) =
      (x.shownTexts e outcome).flatMap fun v => keptTokens v.toList := by
  have hsection : ((Markdown.sectionTexts (x.readingOptions outcome.isSome) e).flatMap
      fun v => keptTokens v.toList) =
        ((x.shownPart e outcome).outcomeTexts.flatMap fun v => keptTokens v.toList) := by
    unfold Markdown.sectionTexts Entity.outcomeTexts shownPart readingOptions
    cases outcome with
    | some _ => rfl
    | none =>
      cases htable : e.table with
      | none => rfl
      | some t =>
        cases hdice : t.roll with
        | none => simp [Markdown.tableTexts, hdice]
        | some roll =>
          have := keptTokens_of_not_mem (hroll t htable roll hdice)
          simp [Markdown.tableTexts, hdice, this]
  have hlong : ((Markdown.longTexts (x.readingOptions outcome.isSome) e).flatMap
      fun v => keptTokens v.toList) = keptTokens (x.shownPart e outcome).fullText.toList := by
    unfold Markdown.longTexts shownPart readingOptions
    cases x.options.includeFullText with
    | true => simp
    | false => rfl
  simp only [readValues, Markdown.values, List.flatten_cons, List.flatten_nil, List.flatMap_append,
    List.flatMap_cons, List.flatMap_nil, List.append_nil, hsection, hlong, shownTexts, Entity.texts,
    List.append_assoc]
  rfl

theorem closed_of_mem_readValues (hroll : RollIsBare e)
    (hclosed : ∀ v ∈ x.shownTexts e outcome, Closed v.toList) :
    ∀ v ∈ x.readValues e outcome, Closed v.toList := by
  simp only [shownTexts, Entity.texts, List.forall_mem_append, List.forall_mem_cons] at hclosed
  simp only [readValues, Markdown.values, List.flatten_cons, List.flatten_nil, List.forall_mem_append,
    List.forall_mem_cons]
  have hsection (h : ∀ v ∈ (x.shownPart e outcome).outcomeTexts, Closed v.toList) :
      ∀ v ∈ Markdown.sectionTexts (x.readingOptions outcome.isSome) e, Closed v.toList := by
    unfold Markdown.sectionTexts readingOptions
    cases outcome with
    | some _ => simp
    | none =>
      cases htable : e.table with
      | none => simp
      | some t =>
        simp only [Entity.outcomeTexts, shownPart, htable] at h
        simp only [Option.isSome_none, Bool.false_eq_true, if_false, Option.map_some, Option.getD_some,
          Markdown.tableTexts, List.forall_mem_append]
        exact ⟨fun roll hdice => closed_of_not_mem (hroll t htable roll (Option.mem_toList.mp hdice)), h⟩
  have hlong (h : Closed (x.shownPart e outcome).fullText.toList) :
      ∀ v ∈ Markdown.longTexts (x.readingOptions outcome.isSome) e, Closed v.toList := by
    unfold Markdown.longTexts readingOptions
    cases hfull : x.options.includeFullText with
    | true => simpa [shownPart, hfull] using h
    | false => simp
  grind [shownPart]

/-! ## What is shown -/

/-- The rendering of an entity and its outcome, with the kept tokens of each field replaced in turn. -/
def rewriteText (x : Expander) (e : Entity) (outcome : Option String) : StateM (List Placeholder) String := do
  let shown ← (x.shownPart e outcome).rewrite
  let written ← outcome.mapM rewriteValue
  return x.renderWith { x.options with skipTable := outcome.isSome } shown written

theorem rewriteText_eq (x : Expander) (e : Entity) (outcome : Option String) (ps : List Placeholder) :
    x.rewriteText e outcome ps =
      (x.renderWith { x.options with skipTable := outcome.isSome }
        ((x.shownPart e outcome).withTexts (rewrittenAll (x.shownTexts e outcome) ps))
        (outcome.map fun _ => (rewrittenAll (x.shownTexts e outcome) ps).getLastD ""),
      leftBy (x.shownTexts e outcome) ps) := by
  unfold rewriteText shownTexts
  rw [rewrittenAll_append, leftBy_append,
    Entity.rewrite_eq _ (rewrittenAll outcome.toList (leftBy (x.shownPart e outcome).texts ps))]
  generalize x.renderWith { x.options with skipTable := outcome.isSome } = render
  cases outcome with
  | none =>
    rw [Option.map_none, Option.toList_none, leftBy_nil]
    rfl
  | some text =>
    rw [Option.map_some, Option.toList_some, rewrittenAll, rewrittenAll, leftBy_cons, leftBy_nil, List.getLastD_concat]
    rfl

/--
Each kept token is replaced where it stands, in its own field, by the placeholder that was read from it. All else is
rendered as it is.
-/
theorem displayText_eq_rewritten {nested : List Placeholder} (hrenderer : x.renderer = .standard)
    (hpaired : ∀ v ∈ x.shownTexts e outcome, Paired v.toList) (hroll : RollIsBare e)
    (hread : (read (x.readText e outcome)).run s = some (.ok nested, s')) :
    List.Forall₂ ReadFrom ((x.shownTexts e outcome).flatMap fun v => keptTokens v.toList) nested ∧
      (x.rewriteText e outcome).run nested = (x.displayText e outcome nested, []) ∧
      x.renderWith { x.options with skipTable := outcome.isSome } (x.shownPart e outcome) outcome =
        x.renderWith { x.options with skipTable := outcome.isSome } e outcome := by
  have hclosed := closed_of_mem_readValues hroll fun v hv => (hpaired v hv).closed
  -- Both sides meet in the kept tokens of the values shown, in the order of the values.
  have htokens := shows_keptTokens (readText_shows hrenderer hclosed)
  have hfrom := parse_ok (read_ok_iff.mp hread)
  rw [htokens, keptTokens_readValues hroll] at hfrom
  refine ⟨hfrom, ?_, renderWith_shownPart hrenderer⟩
  have hwritten : substituteIn (x.shownTexts e outcome) nested = rewrittenAll (x.shownTexts e outcome) nested :=
    substituteIn_eq_rewrittenAll hpaired hfrom
  change x.rewriteText e outcome nested = _
  rw [rewriteText_eq, leftBy_of_readFrom hfrom, ← hwritten]
  rfl

def feast : String := "\x7b1d6 goat\x7d and \x7bgoat\x7d"

def ogre : Entity where
  name := "Ogre"
  scores := ["\x7b1d4 club\x7d", "\x7b?\x7d"]
  effect := "Eats \x7b1d6 goat\x7d, \x7b0 goat\x7d."
  table := some (.ofOutcomes none [(⟨1, 2⟩, feast)])

def imp : Entity where
  name := "Imp \x7b1d6 x\x7d"
  hp := "\x7b1d6 x\x7d"
  attacks := ["\x7b1d6 x\x7d", "\x7b?\x7d"]
  table := some ⟨none, [(⟨1, 1⟩, "\x7b1d6 x\x7d"), (⟨2, 2⟩, "\x7bx\x7d")], []⟩
  flavorText := "\x7bx\x7d"

def lair (format : Format) : Expander where
  lookup name := .error (.notFound name)
  renderer := .standard
  options := { format }

/-- The ogre on a feast of three goats, after two goats. -/
def fedOgre : String :=
  "\\textbf\x7b\\large\x7bOgre\x7d\x7d \n \n\\emph\x7bScores:\x7d 1 club, ? \n \nEats 2 goat, . \n \n" ++
    "\\emph\x7bTable Result:\x7d 3 goat and 1 goat \n \n"

/-- The imp with each of its rolls in a place of its own. -/
def rolledImp : String :=
  "#### Imp 1 x  \n**HP:** 2 x  \n3 x, \x7b?\x7d  \n" ++
    "  \n\n\n\n| Roll | Outcome |  \n| --- | --- |\n| 1 | 4 x |  \n| 2 | 1 x |  \n  \n*1 x*  \n"

theorem displayText_eq_rewritten_ogre :
    (∃ nested s',
      (read ((lair .typeset).readText ogre (some feast))).run
        (.ofStream (fun n => UInt32.ofNat (n * 0x20000000)) 200) = some (.ok nested, s') ∧
      (lair .typeset).displayText ogre (some feast) nested = fedOgre ∧
      ((lair .typeset).rewriteText ogre (some feast)).run nested = (fedOgre, [])) ∧
      ∃ nested s',
        (read ((lair .markdown).readText imp none)).run
          (.ofStream (fun n => UInt32.ofNat (n * 0x20000000)) 200) = some (.ok nested, s') ∧
        (lair .markdown).displayText imp none nested = rolledImp ∧
        ((lair .markdown).rewriteText imp none).run nested = (rolledImp, []) := by
  have hfed :
      (((read ((lair .typeset).readText ogre (some feast))).run
          (.ofStream (fun n => UInt32.ofNat (n * 0x20000000)) 200)).map
        fun p => p.1.toOption.map ((lair .typeset).displayText ogre (some feast))) = some (some fedOgre) := by
    decide +kernel
  have hrolled :
      (((read ((lair .markdown).readText imp none)).run
          (.ofStream (fun n => UInt32.ofNat (n * 0x20000000)) 200)).map
        fun p => p.1.toOption.map ((lair .markdown).displayText imp none)) = some (some rolledImp) := by
    decide +kernel
  constructor
  · obtain ⟨nested, s', hrun, hfed⟩ := Roll.exists_run_of_map hfed
    obtain ⟨-, hrewritten, -⟩ := displayText_eq_rewritten rfl (by decide +kernel) (by decide +kernel) hrun
    exact ⟨nested, s', hrun, hfed, hfed ▸ hrewritten⟩
  · obtain ⟨nested, s', hrun, hrolled⟩ := Roll.exists_run_of_map hrolled
    obtain ⟨-, hrewritten, -⟩ := displayText_eq_rewritten rfl (by decide +kernel) (by decide +kernel) hrun
    exact ⟨nested, s', hrun, hrolled, hrolled ▸ hrewritten⟩

end Expander

end Tabletop
