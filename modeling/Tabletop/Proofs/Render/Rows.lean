import Tabletop.Proofs.Render.Escape
import Tabletop.Render.Standard

/-!
# The rows of a table

An entity is shown with one row for each outcome of its table, and the row has the outcome as it is written. Below
the entity a rolled outcome is escaped, so the two differ in any text that has something to escape.
-/

namespace Tabletop

variable {options : RenderOptions}

/-! ## What there is to escape -/

/-- A text has nothing to escape. -/
def RenderOptions.Harmless (options : RenderOptions) (text : String) : Prop :=
  match options.format with
  | .typeset => ('{' ∉ text.toList ∧ '}' ∉ text.toList) ∧ Text.Arrowless text.toList ∧
      ∀ a, Escape.isSmall a = true → ¬ [a, '_'] <:+: text.toList
  | .markdown => options.escaped = true → Text.Arrowless text.toList ∧ '_' ∉ text.toList ∧ '*' ∉ text.toList

theorem RenderOptions.escape_eq_self_iff {text : String} : options.escape text = text ↔ options.Harmless text := by
  unfold RenderOptions.escape RenderOptions.Harmless
  cases options.format with
  | typeset => exact Escape.typeset_eq_self_iff
  | markdown =>
    cases options.escaped with
    | false => simp
    | true => simp [Escape.markdown_eq_self_iff]

namespace Renderer

/-- The row of an outcome. -/
def row : Format → Table.Key → String → String
  | .markdown => Markdown.row
  | .typeset => Typeset.row

/-- The block of a rolled outcome. -/
def block : Format → String → String
  | .markdown => Markdown.outcome
  | .typeset => Typeset.outcome

theorem row_inj {format : Format} {key : Table.Key} {a b : String} : row format key a = row format key b ↔ a = b := by
  cases format <;> simp [row, Markdown.row, Typeset.row, ← String.toList_inj]

end Renderer

/-! ## Rows in their frame -/

/-- A text shows the rows of some outcomes, between others that are always the same. -/
def Framed (row : Table.Key → String → String) (shown : List (Table.Key × String) → String) : Prop :=
  ∃ front back, ∀ outcomes, shown outcomes = front ++ String.join (outcomes.map fun (key, text) => row key text) ++ back

namespace Framed

variable {row : Table.Key → String → String} {shown : List (Table.Key × String) → String}

theorem rows (row : Table.Key → String → String) :
    Framed row fun outcomes => String.join (outcomes.map fun (key, text) => row key text) :=
  ⟨"", "", fun _ => by simp⟩

theorem left (front : String) (h : Framed row shown) : Framed row fun outcomes => front ++ shown outcomes := by
  obtain ⟨before, after, h⟩ := h
  exact ⟨front ++ before, after, fun outcomes => by simp only [h, String.append_assoc]⟩

theorem right (back : String) (h : Framed row shown) : Framed row fun outcomes => shown outcomes ++ back := by
  obtain ⟨before, after, h⟩ := h
  exact ⟨before, after ++ back, fun outcomes => by simp only [h, String.append_assoc]⟩

theorem first (rest : List String) (h : Framed row shown) :
    Framed row fun outcomes => String.join (shown outcomes :: rest) := by
  simpa only [String.join_cons] using h.right (String.join rest)

theorem later (part : String) {rest : List (Table.Key × String) → List String}
    (h : Framed row fun outcomes => String.join (rest outcomes)) :
    Framed row fun outcomes => String.join (part :: rest outcomes) := by
  simpa only [String.join_cons] using h.left part

end Framed

namespace Markdown

theorem plain_table (t : Table) : plain (table t) = table t ++ "  \n" := by
  have hne : (table t).isEmpty = false := by
    unfold table
    simp
  unfold plain line
  simp [hne]

theorem framed_entity (hskip : options.skipTable = false) (e : Entity) (t : Table) :
    Framed row fun outcomes => entity options { e with table := some { t with outcomes } } := by
  have htable : Framed row fun outcomes => table { t with outcomes } := by
    unfold table
    dsimp only
    exact ((Framed.rows row).left _).right _
  have hsection : Framed row fun outcomes => tableSection { e with table := some { t with outcomes } } options := by
    unfold tableSection
    simpa [hskip, plain_table] using htable.right "  \n"
  unfold entity
  dsimp only
  iterate 13 refine .later _ ?_
  exact hsection.first [line "*" e.flavorText "*", fullText e options, labelled "Encumbrance" e.encumbrance]

end Markdown

namespace Typeset

theorem paragraph_table (t : Table) : paragraph (table t) = table t ++ " \n \n" := by
  have hne : (table t).isEmpty = false := by
    unfold table
    simp
  unfold paragraph
  simp [hne]

theorem framed_entity (hskip : options.skipTable = false) (e : Entity) (t : Table) :
    Framed row fun outcomes => entity options { e with table := some { t with outcomes } } := by
  have htable : Framed row fun outcomes => table { t with outcomes } := by
    unfold table
    dsimp only
    exact (((((Framed.rows row).left _).right _).right _).right _).right _
  have hsection : Framed row fun outcomes => tableSection { e with table := some { t with outcomes } } options := by
    unfold tableSection
    simpa [hskip, paragraph_table] using htable.right " \n \n"
  unfold entity
  dsimp only
  iterate 13 refine .later _ ?_
  exact hsection.first [flavor e.flavorText, encumbrance e.encumbrance]

end Typeset

namespace Renderer

/-- The rows of a table show its outcomes as they are written, while the block of a rolled outcome has it escaped. -/
theorem standard_shows_outcomes (hskip : options.skipTable = false) (e : Entity) (t : Table) :
    (∃ front back, ∀ outcomes : List (Table.Key × String),
      standard.entity options { e with table := some { t with outcomes } } =
        front ++ String.join (outcomes.map fun (key, text) => row options.format key text) ++ back) ∧
      ∀ (key : Table.Key) (text : String),
        standard.outcome options text = block options.format (options.escape text) ∧
        (row options.format key text = row options.format key (options.escape text) ↔ options.Harmless text) := by
  constructor
  · unfold standard standardEntity
    dsimp only
    cases options.format with
    | markdown => exact Markdown.framed_entity hskip (Escape.fields options.escape e) t
    | typeset => exact Typeset.framed_entity hskip (Escape.fields options.escape e) t
  · intro key text
    rw [row_inj, eq_comm (a := text), RenderOptions.escape_eq_self_iff]
    refine ⟨?_, Iff.rfl⟩
    unfold standard standardOutcome block
    dsimp only
    cases options.format <;> rfl

def loot : Entity :=
  { name := "Loot"
    table := some { roll := some "1d1", outcomes := [(⟨1, 1⟩, "gold_coin")], coverage := [(1, "gold_coin")] } }

theorem standard_shows_outcomes_loot :
    ∃ front back, standard.entity { format := .typeset } loot = front ++ "\n\\hline\n1 & gold_coin \\\\" ++ back ∧
      standard.outcome { format := .typeset } "gold_coin" = block .typeset "gold\\_coin" ∧
      ¬ RenderOptions.Harmless { format := .typeset } "gold_coin" := by
  have hskip : RenderOptions.skipTable { format := .typeset } = false := rfl
  obtain ⟨⟨front, back, hrows⟩, houtcomes⟩ := standard_shows_outcomes hskip loot
    { roll := some "1d1", outcomes := [], coverage := [(1, "gold_coin")] }
  obtain ⟨houtcome, hrow⟩ := houtcomes ⟨1, 1⟩ "gold_coin"
  have hescape : RenderOptions.escape { format := .typeset } "gold_coin" = "gold\\_coin" := by decide
  rw [hescape] at houtcome hrow
  refine ⟨front, back, ?_, houtcome, hrow.not.mp ?_⟩
  · exact hrows [(⟨1, 1⟩, "gold_coin")]
  · rw [row_inj]
    decide

/-- No row shows the coin as the block does. -/
theorem row_gold_coin :
    standard.outcome { escaped := true } "gold_coin" = block .markdown "gold\\_coin" ∧
      (row .markdown ⟨1, 1⟩ "gold_coin").toList <:+: (standard.entity { escaped := true } loot).toList ∧
      ¬ (row .markdown ⟨1, 1⟩ "gold\\_coin").toList <:+: (standard.entity { escaped := true } loot).toList := by
  have hentity : standard.entity { escaped := true } loot =
      "#### Loot  \n  \n\nUnless otherwise specified, roll 1d1 on this table.\n\n" ++
        "| Roll | Outcome |  \n| --- | --- |\n| 1 | gold_coin |  \n  \n" := by
    decide +kernel
  rw [hentity]
  decide +kernel

end Renderer

end Tabletop
