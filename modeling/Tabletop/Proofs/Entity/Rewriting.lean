import Tabletop.Entity.Field
import Tabletop.Proofs.Placeholder.Substitution

/-!
# Rewriting an entity

The placeholders that were read from an entity go over its fields one after another. Each field takes as many of them
as it has kept tokens, puts them in place of these, and leaves the rest to the fields behind it.
-/

namespace Tabletop

open Placeholder

/-! ## One field after another -/

/-- A value with its kept tokens replaced, each by the next placeholder. -/
def rewriteValue (v : String) : StateM (List Placeholder) String := fun ps =>
  (String.ofList (rewritten (pieces v.toList) ps), ps.drop (keptTokens v.toList).length)

def Table.rewrite (t : Table) : StateM (List Placeholder) Table := do
  return { t with outcomes := ← t.outcomes.mapM fun (key, outcome) => return (key, ← rewriteValue outcome) }

/-- The fields in the order in which they are shown. The others stay as they are. -/
def Entity.rewrite (e : Entity) : StateM (List Placeholder) Entity := do
  return { e with
    name := ← rewriteValue e.name
    hp := ← rewriteValue e.hp
    scores := ← e.scores.mapM rewriteValue
    skills := ← e.skills.mapM rewriteValue
    holds := ← rewriteValue e.holds
    tags := ← e.tags.mapM rewriteValue
    requirements := ← e.requirements.mapM rewriteValue
    cost := ← e.cost.mapM rewriteValue
    speed := ← rewriteValue e.speed
    target := ← rewriteValue e.target
    toHit := ← rewriteValue e.toHit
    attacks := ← e.attacks.mapM rewriteValue
    effect := ← rewriteValue e.effect
    table := ← e.table.mapM Table.rewrite
    flavorText := ← rewriteValue e.flavorText
    fullText := ← rewriteValue e.fullText
    encumbrance := ← rewriteValue e.encumbrance }

/-! ## All values at once -/

variable {vs ws : List String} {ps : List Placeholder}

/-- The placeholders that some values leave. -/
def leftBy (vs : List String) (ps : List Placeholder) : List Placeholder :=
  ps.drop (vs.flatMap fun v => keptTokens v.toList).length

theorem leftBy_nil : leftBy [] ps = ps := rfl

theorem leftBy_cons (v : String) : leftBy (v :: vs) ps = leftBy vs (ps.drop (keptTokens v.toList).length) := by
  simp [leftBy, List.drop_drop]

theorem leftBy_append : leftBy (vs ++ ws) ps = leftBy ws (leftBy vs ps) := by
  simp [leftBy, List.drop_drop]

theorem leftBy_of_readFrom (hread : List.Forall₂ ReadFrom (vs.flatMap fun v => keptTokens v.toList) ps) :
    leftBy vs ps = [] := by
  unfold leftBy
  rw [hread.length_eq, List.drop_length]

theorem rewrittenAll_append : rewrittenAll (vs ++ ws) ps = rewrittenAll vs ps ++ rewrittenAll ws (leftBy vs ps) := by
  induction vs generalizing ps with
  | nil => rfl
  | cons v vs ih => simp [rewrittenAll, ih, leftBy_cons]

theorem length_rewrittenAll : (rewrittenAll vs ps).length = vs.length := by
  induction vs generalizing ps with
  | nil => rfl
  | cons v vs ih => simp [rewrittenAll, ih]

theorem mapM_rewriteValue (vs : List String) : vs.mapM rewriteValue = fun ps => (rewrittenAll vs ps, leftBy vs ps) := by
  induction vs with
  | nil => rfl
  | cons v vs ih =>
    rw [List.mapM_cons, ih]
    funext ps
    rw [leftBy_cons]
    rfl

theorem Table.rewrite_eq (t : Table) :
    t.rewrite = fun ps =>
      (t.withTexts (rewrittenAll (t.outcomes.map Prod.snd) ps), leftBy (t.outcomes.map Prod.snd) ps) := by
  suffices h : (t.outcomes.mapM fun entry => (do return (entry.1, ← rewriteValue entry.2) : StateM _ _)) = fun ps =>
      (List.zipWith (fun entry text => (entry.1, text)) t.outcomes (rewrittenAll (t.outcomes.map Prod.snd) ps),
        leftBy (t.outcomes.map Prod.snd) ps) by
    unfold rewrite
    rw [h]
    rfl
  induction t.outcomes with
  | nil => rfl
  | cons entry rest ih =>
    rw [List.mapM_cons, ih]
    funext ps
    rw [List.map_cons, leftBy_cons]
    rfl

namespace Entity

theorem mapM_rewrite_table (e : Entity) :
    e.table.mapM Table.rewrite =
      fun ps => (e.table.map (·.withTexts (rewrittenAll e.outcomeTexts ps)), leftBy e.outcomeTexts ps) := by
  unfold outcomeTexts
  cases e.table with
  | none => rfl
  | some t =>
    change (some <$> t.rewrite) = _
    rw [Table.rewrite_eq]
    rfl

theorem rewrite_eq (e : Entity) (extra : List String) :
    e.rewrite = fun ps => (e.withTexts (rewrittenAll e.texts ps ++ extra), leftBy e.texts ps) := by
  unfold rewrite texts
  simp only [mapM_rewriteValue, mapM_rewrite_table, rewrittenAll_append, leftBy_append, rewrittenAll, leftBy_cons,
    leftBy_nil]
  funext ps
  rw [withTexts_parts]
  · rfl
  all_goals exact length_rewrittenAll

end Entity

end Tabletop
