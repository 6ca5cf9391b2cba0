import Tabletop.Entity.Basic

/-!
# Fields

The fields of an entity by the names that content gives them, and the texts that are shown, in the
order in which they are shown.
-/

namespace Tabletop

/-! ## Fields of one text -/

inductive TextField where
  | name | cleanName | hp | holds | speed | target | toHit | effect | flavorText | fullText | encumbrance
deriving Repr, DecidableEq

namespace TextField

def all : List TextField :=
  [name, cleanName, hp, holds, speed, target, toHit, effect, flavorText, fullText, encumbrance]

def label : TextField → String
  | name => "name"
  | cleanName => "clean_name"
  | hp => "hp"
  | holds => "holds"
  | speed => "speed"
  | target => "target"
  | toHit => "to_hit"
  | effect => "effect"
  | flavorText => "flavor_text"
  | fullText => "full_text"
  | encumbrance => "encumbrance"

def ofLabel? (label : String) : Option TextField := all.find? (·.label = label)

def get : TextField → Entity → String
  | name, e => e.name
  | cleanName, e => e.cleanName
  | hp, e => e.hp
  | holds, e => e.holds
  | speed, e => e.speed
  | target, e => e.target
  | toHit, e => e.toHit
  | effect, e => e.effect
  | flavorText, e => e.flavorText
  | fullText, e => e.fullText
  | encumbrance, e => e.encumbrance

def set : TextField → String → Entity → Entity
  | name, s, e => { e with name := s }
  | cleanName, s, e => { e with cleanName := s }
  | hp, s, e => { e with hp := s }
  | holds, s, e => { e with holds := s }
  | speed, s, e => { e with speed := s }
  | target, s, e => { e with target := s }
  | toHit, s, e => { e with toHit := s }
  | effect, s, e => { e with effect := s }
  | flavorText, s, e => { e with flavorText := s }
  | fullText, s, e => { e with fullText := s }
  | encumbrance, s, e => { e with encumbrance := s }

end TextField

/-! ## Fields of many texts -/

inductive ListField where
  | scores | skills | tags | requirements | cost | attacks | metaTags
deriving Repr, DecidableEq

namespace ListField

def all : List ListField := [scores, skills, tags, requirements, cost, attacks, metaTags]

def label : ListField → String
  | scores => "scores"
  | skills => "skills"
  | tags => "tags"
  | requirements => "requirements"
  | cost => "cost"
  | attacks => "attacks"
  | metaTags => "meta_tags"

def ofLabel? (label : String) : Option ListField := all.find? (·.label = label)

def get : ListField → Entity → List String
  | scores, e => e.scores
  | skills, e => e.skills
  | tags, e => e.tags
  | requirements, e => e.requirements
  | cost, e => e.cost
  | attacks, e => e.attacks
  | metaTags, e => e.metaTags

def set : ListField → List String → Entity → Entity
  | scores, l, e => { e with scores := l }
  | skills, l, e => { e with skills := l }
  | tags, l, e => { e with tags := l }
  | requirements, l, e => { e with requirements := l }
  | cost, l, e => { e with cost := l }
  | attacks, l, e => { e with attacks := l }
  | metaTags, l, e => { e with metaTags := l }

end ListField

/-! ## Shown texts -/

namespace Table

/-- The table with other texts for its outcomes. Its coverage stays as it was worked out. -/
def withTexts (t : Table) (texts : List String) : Table :=
  { t with outcomes := List.zipWith (fun (key, _) text => (key, text)) t.outcomes texts }

theorem withTexts_map_snd (t : Table) : t.withTexts (t.outcomes.map Prod.snd) = t := by
  simp [withTexts, List.zipWith_map_right]

end Table

namespace Entity

/-- The table's outcomes as written. -/
def outcomeTexts (e : Entity) : List String := (e.table.map fun t => t.outcomes.map Prod.snd).getD []

/-- Every text that can be shown, outcomes included, in the order in which they are shown. -/
def texts (e : Entity) : List String :=
  [e.name, e.hp] ++ e.scores ++ e.skills ++ [e.holds] ++ e.tags ++ e.requirements ++ e.cost ++
    [e.speed, e.target, e.toHit] ++ e.attacks ++ [e.effect] ++ e.outcomeTexts ++
    [e.flavorText, e.fullText, e.encumbrance]

/-- The entity with other texts in the places of `texts`. -/
def withTexts (e : Entity) (texts : List String) : Entity :=
  let (name, texts) := (texts.headD "", texts.tail)
  let (hp, texts) := (texts.headD "", texts.tail)
  let (scores, texts) := texts.splitAt e.scores.length
  let (skills, texts) := texts.splitAt e.skills.length
  let (holds, texts) := (texts.headD "", texts.tail)
  let (tags, texts) := texts.splitAt e.tags.length
  let (requirements, texts) := texts.splitAt e.requirements.length
  let (cost, texts) := texts.splitAt e.cost.length
  let (speed, texts) := (texts.headD "", texts.tail)
  let (target, texts) := (texts.headD "", texts.tail)
  let (toHit, texts) := (texts.headD "", texts.tail)
  let (attacks, texts) := texts.splitAt e.attacks.length
  let (effect, texts) := (texts.headD "", texts.tail)
  let (outcomes, texts) := texts.splitAt e.outcomeTexts.length
  let (flavorText, texts) := (texts.headD "", texts.tail)
  let (fullText, texts) := (texts.headD "", texts.tail)
  { e with
    name, hp, scores, skills, holds, tags, requirements, cost, speed, target, toHit, attacks, effect
    table := e.table.map (·.withTexts outcomes)
    flavorText, fullText, encumbrance := texts.headD "" }

/-- Each field gets its own part of the texts. What is left over is dropped. -/
theorem withTexts_parts (e : Entity) (name hp holds speed target toHit effect flavorText fullText encumbrance : String)
    {scores skills tags requirements cost attacks outcomes : List String} (extra : List String)
    (hscores : scores.length = e.scores.length) (hskills : skills.length = e.skills.length)
    (htags : tags.length = e.tags.length) (hrequirements : requirements.length = e.requirements.length)
    (hcost : cost.length = e.cost.length) (hattacks : attacks.length = e.attacks.length)
    (houtcomes : outcomes.length = e.outcomeTexts.length) :
    e.withTexts ([name, hp] ++ scores ++ skills ++ [holds] ++ tags ++ requirements ++ cost ++ [speed, target, toHit] ++
      attacks ++ [effect] ++ outcomes ++ [flavorText, fullText, encumbrance] ++ extra) =
      { e with
        name, hp, scores, skills, holds, tags, requirements, cost, speed, target, toHit, attacks, effect
        table := e.table.map (·.withTexts outcomes)
        flavorText, fullText, encumbrance } := by
  unfold withTexts
  simp [List.splitAt_eq, ← hscores, ← hskills, ← htags, ← hrequirements, ← hcost, ← hattacks, ← houtcomes]

theorem withTexts_append (e : Entity) (extra : List String) : e.withTexts (e.texts ++ extra) = e := by
  have htable : e.table.map (·.withTexts e.outcomeTexts) = e.table := by
    cases h : e.table with
    | none => rfl
    | some t => simp [outcomeTexts, h, Table.withTexts_map_snd]
  unfold texts
  rw [withTexts_parts e _ _ _ _ _ _ _ _ _ _ extra rfl rfl rfl rfl rfl rfl rfl, htable]

end Entity

end Tabletop
