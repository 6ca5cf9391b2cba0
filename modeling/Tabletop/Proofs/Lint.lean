import Tabletop.Lint
import Tabletop.Proofs.Compendium.Reachable
import Tabletop.Proofs.Expansion.Completion
import Tabletop.Proofs.Expansion.Display
import Tabletop.Proofs.Expansion.Roots
import Tabletop.Proofs.Table.Resolve

/-!
# What a clean report promises

If the checker finds no errors in a compendium, then every expansion of an entity in it succeeds, with
whatever is rolled.
-/

namespace Tabletop

open Tabletop.Random Tabletop.Placeholder

namespace Lint

variable {c : Compendium} {e : Entity} {report : Report} {s s' : Source}

/-! ## Reports -/

theorem errors_append (a b : Report) : (a ++ b).errors = a.errors ++ b.errors := rfl

theorem errors_foldl_append (reports : List Report) (first : Report) :
    (reports.foldl (· ++ ·) first).errors = first.errors ++ reports.flatMap (·.errors) := by
  induction reports generalizing first with
  | nil => simp
  | cons r rest ih => rw [List.foldl_cons, ih, errors_append, List.flatMap_cons, List.append_assoc]

theorem checkEntities_ok {es : List Entity} (h : (checkEntities c es).run s = some (report, s'))
    (herrors : report.errors = []) (he : e ∈ es) :
    ∃ t r t', (checkEntity c e).run t = some (r, t') ∧ r.errors = [] := by
  induction es generalizing s report with
  | nil => simp at he
  | cons first rest ih =>
    simp only [checkEntities, StateT.run_bind, Option.bind_eq_bind, Option.bind_eq_some_iff,
      StateT.run_pure, Prod.exists] at h
    obtain ⟨r, t, hfirst, reports, u, hrest, h⟩ := h
    cases h
    rw [errors_append, List.append_eq_nil_iff] at herrors
    rcases List.mem_cons.mp he with rfl | he
    · exact ⟨s, r, t, hfirst, herrors.1⟩
    · exact ih hrest herrors.2 he

/-! ## One entity -/

/-- What a check of an entity shows if it finds no error. -/
structure Checked (c : Compendium) (e : Entity) : Prop where
  table : ∀ t ∈ e.table, t.coverage ≠ [] ∧ t.RollReadable
  readable : (tokens (checkedText e).toList).findSome? tokenFault? = none
  named : ∀ token ∈ keptTokens (checkedText e).toList, (outline token).entity = "" ∨
    (outline token).entity = e.cleanName ∨ ∃ found, c.find (outline token).entity = .ok found

theorem checkTable_ok {t : Table} (h : (checkTable e t).errors = []) :
    t.coverage ≠ [] ∧ t.RollReadable := by
  unfold checkTable at h
  dsimp only at h
  rw [List.append_eq_nil_iff] at h
  constructor
  · intro hempty
    simp [hempty] at h
  · intro dice hdice
    rw [Option.mem_def] at hdice
    cases hparse : Dice.parse dice with
    | ok d => exact ⟨d, rfl⟩
    | error _ => simp [hdice, hparse] at h

theorem checkPlaceholder_ok {p : Placeholder} (h : (checkPlaceholder c e p).errors = []) :
    p.entity = "" ∨ p.entity = e.cleanName ∨ ∃ found, c.find p.entity = .ok found := by
  unfold checkPlaceholder at h
  split at h
  next hbare => exact .inl (by simpa [isBareRoll] using hbare)
  next =>
    split at h
    next hself => exact .inr (.inl hself)
    next =>
      split at h
      next found hfind => exact .inr (.inr ⟨found, hfind⟩)
      next => simp at h

theorem checkText_ok (h : (checkText c e).run s = some (report, s')) (herrors : report.errors = []) :
    (tokens (checkedText e).toList).findSome? tokenFault? = none ∧
      ∀ token ∈ keptTokens (checkedText e).toList, (outline token).entity = "" ∨
        (outline token).entity = e.cleanName ∨ ∃ found, c.find (outline token).entity = .ok found := by
  simp only [checkText, StateT.run_bind, Option.bind_eq_bind, Option.bind_eq_some_iff,
    Prod.exists] at h
  obtain ⟨result, t, hparse, h⟩ := h
  have hfault := hasFault_parse (checkedText e) s result t hparse
  cases result with
  | error error =>
    cases h
    simp at herrors
  | ok found =>
    cases h
    rw [errors_foldl_append, List.nil_append] at herrors
    refine ⟨hfault, fun token htoken => ?_⟩
    have hentity : (outline token).entity ∈ found.map (·.entity) := by
      rw [map_entity (parse_ok hparse)]
      exact List.mem_map_of_mem htoken
    obtain ⟨p, hp, hp'⟩ := List.mem_map.mp hentity
    rw [← hp']
    apply checkPlaceholder_ok
    rw [List.flatMap_eq_nil_iff] at herrors
    exact herrors _ (List.mem_map_of_mem hp)

theorem checkEntity_ok (h : (checkEntity c e).run s = some (report, s')) (herrors : report.errors = []) :
    Checked c e := by
  unfold checkEntity at h
  split at h
  · cases h
    simp at herrors
  · simp only [StateT.run_bind, Option.bind_eq_bind, Option.bind_eq_some_iff, StateT.run_pure,
      Prod.exists] at h
    obtain ⟨texts, t, htext, h⟩ := h
    cases h
    rw [errors_append, List.append_eq_nil_iff] at herrors
    obtain ⟨hreadable, hnamed⟩ := checkText_ok htext herrors.2
    refine ⟨fun table htable => ?_, hreadable, hnamed⟩
    rw [Option.mem_def] at htable
    have hchecked := herrors.1
    rw [htable, Option.map_some, Option.getD_some] at hchecked
    exact checkTable_ok hchecked

/-- A report without errors: no name is shared, and every entity passed its check. -/
theorem check_ok (h : (check c).run s = some (report, s')) (herrors : report.errors = []) :
    c.ambiguousNames = [] ∧ ∀ e ∈ c.entities, Checked c e := by
  simp only [check, StateT.run_bind, Option.bind_eq_bind, Option.bind_eq_some_iff, StateT.run_pure,
    Prod.exists] at h
  obtain ⟨entities, t, hentities, h⟩ := h
  cases h
  rw [errors_append, List.append_eq_nil_iff] at herrors
  refine ⟨List.map_eq_nil_iff.mp herrors.1, fun e he => ?_⟩
  obtain ⟨u, r, u', hrun, hr⟩ := checkEntities_ok hentities herrors.2 he
  exact checkEntity_ok hrun hr

/-! ## What the checker reads -/

/-- Each text of the entity closes all that it opens, and so does the roll of its table. -/
structure ClosedTexts (e : Entity) : Prop where
  texts : ∀ v ∈ e.texts, Closed v.toList
  roll : ∀ t ∈ e.table, ∀ roll ∈ t.roll, Closed roll.toList

instance (e : Entity) : Decidable (ClosedTexts e) :=
  decidable_of_iff ((∀ v ∈ e.texts, Closed v.toList) ∧ ∀ t ∈ e.table, ∀ roll ∈ t.roll, Closed roll.toList)
    ⟨fun h => ⟨h.1, h.2⟩, fun h => ⟨h.texts, h.roll⟩⟩

/-- The values that the checker reads, which are all there are. -/
def checkedValues (e : Entity) : List String := Markdown.values { includeFullText := true } e

theorem ClosedTexts.checkedValues (h : ClosedTexts e) : ∀ v ∈ checkedValues e, Closed v.toList := by
  have htexts := h.texts
  have htable : ∀ v ∈ Markdown.sectionTexts { includeFullText := true } e, Closed v.toList := by
    unfold Markdown.sectionTexts
    cases ht : e.table with
    | none => simp
    | some t =>
      intro v hv
      rcases List.mem_append.mp hv with hroll | houtcome
      · exact h.roll t ht v (Option.mem_toList.mp hroll)
      · refine htexts v ?_
        simp only [Entity.texts, Entity.outcomeTexts, ht, List.mem_append]
        simp [houtcome]
  simp only [Entity.texts, List.forall_mem_append, List.forall_mem_cons] at htexts
  simp only [Lint.checkedValues, Markdown.values, Markdown.longTexts, List.flatten_cons,
    List.flatten_nil, List.forall_mem_append, List.forall_mem_cons]
  grind

theorem checkedText_shows (h : ClosedTexts e) : Shows (checkedText e) (checkedValues e) := by
  unfold checkedText
  rw [Renderer.standard_entity_plain rfl rfl]
  exact Markdown.entity_shows h.checkedValues

theorem mem_sectionTexts {text : String} (h : text ∈ e.outcomeTexts) :
    text ∈ Markdown.sectionTexts { includeFullText := true } e := by
  unfold Entity.outcomeTexts at h
  unfold Markdown.sectionTexts
  cases ht : e.table with
  | none => simp [ht] at h
  | some t =>
    rw [ht] at h
    exact List.mem_append_right _ h

theorem mem_checkedValues {x : Expander} {outcome : Option String} {v : String}
    (houtcome : ∀ text ∈ outcome, text ∈ e.outcomeTexts) (hv : v ∈ x.readValues e outcome) :
    v ∈ checkedValues e := by
  have hsection (h : v ∈ Markdown.sectionTexts (x.readingOptions outcome.isSome) e) :
      v ∈ Markdown.sectionTexts { includeFullText := true } e := by
    unfold Markdown.sectionTexts at h ⊢
    split at h
    · simp at h
    · exact h
  have hlong (h : v ∈ Markdown.longTexts (x.readingOptions outcome.isSome) e) :
      v ∈ Markdown.longTexts { includeFullText := true } e := by
    unfold Markdown.longTexts at h ⊢
    split at h
    · exact h
    · simp at h
  have hrolled (h : v ∈ outcome.toList) : v ∈ Markdown.sectionTexts { includeFullText := true } e :=
    mem_sectionTexts (houtcome v (Option.mem_toList.mp h))
  simp only [Expander.readValues, Markdown.values, List.flatten_cons, List.flatten_nil,
    List.mem_append] at hv
  simp only [checkedValues, Markdown.values, List.flatten_cons, List.flatten_nil, List.mem_append]
  grind

/-! ## Expansions -/

/-- The entity can be resolved, and so can all that it refers to be found. -/
structure Sound (c : Compendium) (e : Entity) : Prop where
  closed : ClosedTexts e
  table : ∀ t ∈ e.table, t.coverage ≠ [] ∧ t.RollReadable ∧
    ∀ text ∈ t.coverage.map Prod.snd, text ∈ e.outcomeTexts
  readable : ∀ v ∈ checkedValues e, ∀ token ∈ tokens v.toList, tokenFault? token = none
  found : ∀ v ∈ checkedValues e, ∀ token ∈ keptTokens v.toList,
    (outline token).entity = "" ∨ ∃ found, c.find (outline token).entity = .ok found

theorem sound_of_checked (hreach : c.Reachable) (hnames : c.ambiguousNames = []) (he : e ∈ c.entities)
    (hclosed : ClosedTexts e) (hchecked : Checked c e) : Sound c e := by
  have hshows := checkedText_shows hclosed
  refine ⟨hclosed, fun t ht => ?_, fun v hv token htoken => ?_, fun v hv token htoken => ?_⟩
  · obtain ⟨hcoverage, hroll⟩ := hchecked.table t ht
    refine ⟨hcoverage, hroll, fun text htext => ?_⟩
    rw [hreach.coverage_eq he ht] at htext
    obtain ⟨pair, hpair, rfl⟩ := List.mem_map.mp htext
    have := Table.mem_coverageOf hpair
    rw [Option.mem_def] at ht
    rwa [Entity.outcomeTexts, ht]
  · have hreadable := hchecked.readable
    rw [hshows.tokens_eq, List.findSome?_eq_none_iff] at hreadable
    exact hreadable token (List.mem_flatMap.mpr ⟨v, hv, htoken⟩)
  · have hnamed := hchecked.named token (by
      rw [Expander.shows_keptTokens hshows]
      exact List.mem_flatMap.mpr ⟨v, hv, htoken⟩)
    -- A reference to itself is only a warning, but the entity can be found.
    rcases hnamed with hbare | hself | hfound
    · exact .inl hbare
    · exact .inr ⟨e, by rw [hself]; exact hreach.find_cleanName hnames he⟩
    · exact .inr hfound

theorem Sound.yields_rollTable (h : Sound c e) (given : Option Int) (rolls : Bool) :
    (Expander.rollTable e given rolls).Yields fun outcome =>
      outcome.isSome = (rolls && e.hasTable) ∧ ∀ text ∈ outcome, text ∈ e.outcomeTexts := by
  unfold Expander.rollTable
  cases ht : e.table with
  | none => exact Roll.yields_pure (by simp [Entity.hasTable, ht])
  | some t =>
    obtain ⟨hcoverage, hroll, houtcomes⟩ := h.table t ht
    cases rolls with
    | false => exact Roll.yields_pure (by simp)
    | true =>
      refine Roll.yields_bind (Roll.yields_adapt (Table.yields_resolve hroll hcoverage given))
        fun text htext => Roll.yields_pure ?_
      refine ⟨by simp [Entity.hasTable, ht], fun other hother => ?_⟩
      obtain rfl : text = other := by simpa using hother
      exact houtcomes text htext

/-- The entity of the placeholder can be found, unless it is a bare roll. -/
def Findable (c : Compendium) (p : Placeholder) : Prop :=
  p.isBareRoll = false → ∃ found, c.find p.entity = .ok found

theorem Sound.yields_read {x : Expander} (hrenderer : x.renderer = .standard) (h : Sound c e)
    {outcome : Option String} (houtcome : ∀ text ∈ outcome, text ∈ e.outcomeTexts) :
    (Expander.read (x.readText e outcome)).Yields fun nested => ∀ p ∈ nested, Findable c p := by
  have hread : ∀ v ∈ x.readValues e outcome, v ∈ checkedValues e :=
    fun v hv => mem_checkedValues houtcome hv
  have hshows := Expander.readText_shows hrenderer fun v hv => h.closed.checkedValues v (hread v hv)
  have hreadable : (tokens (x.readText e outcome).toList).findSome? tokenFault? = none := by
    rw [hshows.tokens_eq, List.findSome?_eq_none_iff]
    intro token htoken
    obtain ⟨v, hv, htoken⟩ := List.mem_flatMap.mp htoken
    exact h.readable v (hread v hv) token htoken
  intro s result s' hrun
  obtain ⟨nested, rfl, hfrom⟩ := Expander.yields_read hreadable s result s' hrun
  refine ⟨nested, rfl, fun p hp hbare => ?_⟩
  have hentity : p.entity ∈ nested.map (·.entity) := List.mem_map_of_mem hp
  rw [map_entity hfrom, Expander.shows_keptTokens hshows] at hentity
  obtain ⟨token, htoken, hentity⟩ := List.mem_map.mp hentity
  obtain ⟨v, hv, htoken⟩ := List.mem_flatMap.mp htoken
  rcases h.found v (hread v hv) token htoken with hempty | hfound
  · rw [isBareRoll, ← hentity, hempty] at hbare
    cases hbare
  · rwa [← hentity]

section Run

variable {x : Expander} (hlookup : x.lookup = c.find) (hrenderer : x.renderer = .standard)
  (hsound : ∀ e ∈ c.entities, Sound c e)
include hlookup hrenderer hsound

theorem yields_resolve {p : Placeholder} (hfind : c.find p.entity = .ok e) (rolls : Bool) :
    (x.resolve p rolls).Yields fun node => ∀ q ∈ node.nested, Findable c q := by
  have hentity := hsound e (Compendium.mem_of_find hfind)
  have hfound : (x.find p.entity).Yields (· = e) := by
    intro s result s' hrun
    rw [Expander.run_find, hlookup, hfind] at hrun
    cases hrun
    exact ⟨e, rfl, rfl⟩
  unfold Expander.resolve
  refine Roll.yields_bind hfound ?_
  rintro _ rfl
  refine Roll.yields_bind (hentity.yields_rollTable p.result rolls) ?_
  rintro outcome ⟨houtcome, hmem⟩
  rw [← houtcome]
  exact Roll.yields_bind (hentity.yields_read hrenderer hmem) fun nested hnested =>
    Roll.yields_pure hnested

theorem yields_run (mode : Expansion.Mode) (room : Nat) (p : Expansion.Progress)
    (hwaiting : ∀ r ∈ p.waiting, ∃ found, c.find r.placeholder.entity = .ok found) :
    (x.run mode room p).Yields fun _ => True := by
  induction room generalizing p with
  | zero => exact Roll.yields_pure trivial
  | succ room ih =>
    unfold Expander.run
    split
    · exact Roll.yields_pure trivial
    next r waiting hw =>
      rw [hw, List.forall_mem_cons] at hwaiting
      obtain ⟨found, hfind⟩ := hwaiting.1
      refine Roll.yields_bind (yields_resolve hlookup hrenderer hsound hfind mode.rolls) ?_
      intro node hnested
      refine ih _ ?_
      -- What comes up is not a bare roll, and all else in the text was found by the checker.
      change ∀ r' ∈ waiting ++ Expansion.requestsOf mode node.nested, _
      rw [List.forall_mem_append]
      refine ⟨hwaiting.2, fun r' hr' => ?_⟩
      obtain ⟨hmem, hbare⟩ := Expansion.mem_of_mem_requestsOf hr'
      exact hnested r'.placeholder hmem hbare

theorem yields_expand (mode : Expansion.Mode) {root : Placeholder} (hroot : Findable c root) :
    (x.expand mode root).Yields fun _ => True := by
  refine yields_run hlookup hrenderer hsound mode _ _ fun r hr => ?_
  have hr : r ∈ Expansion.rootRequests root := hr
  unfold Expansion.rootRequests at hr
  split at hr
  next => simp at hr
  next hbare =>
    rw [List.eq_of_mem_replicate (Expansion.mem_of_mem_group hr)]
    exact hroot (by simpa using hbare)

end Run

/--
If a compendium is checked without errors, and its texts close what they open, then every expansion of an entity comes
to a tree wherever the rolls come to an end.
-/
theorem expand_ok_of_check (hreach : c.Reachable) (hclosed : ∀ e ∈ c.entities, ClosedTexts e)
    (hcheck : (check c).run s = some (report, s')) (herrors : report.errors = []) (he : e ∈ c.entities)
    (options : RenderOptions) (mode : Expansion.Mode) (quantity : Nat) :
    (∀ t result t',
      ((⟨c.find, .standard, options⟩ : Expander).expand mode (.ofEntity e.cleanName quantity)).run t =
        some (result, t') → ∃ expansion, result = .ok expansion) ∧
      ∀ word, Lively word → ∀ drawn, ∃ need expansion drawn', ∀ extra,
        ((⟨c.find, .standard, options⟩ : Expander).expand mode (.ofEntity e.cleanName quantity)).run
          ⟨word, drawn, need + extra⟩ = some (.ok expansion, ⟨word, drawn', extra⟩) := by
  obtain ⟨hnames, hchecked⟩ := check_ok hcheck herrors
  have hsound (f : Entity) (hf : f ∈ c.entities) : Sound c f :=
    sound_of_checked hreach hnames hf (hclosed f hf) (hchecked f hf)
  have hroot : Findable c (.ofEntity e.cleanName quantity) :=
    fun _ => ⟨e, hreach.find_cleanName hnames he⟩
  have hyields := yields_expand (x := ⟨c.find, .standard, options⟩) rfl rfl hsound mode hroot
  constructor
  · intro t result t' hrun
    obtain ⟨expansion, hexpansion, -⟩ := hyields t result t' hrun
    exact ⟨expansion, hexpansion⟩
  · -- The expansion comes to an end, and an end that is a failure is ruled out above.
    intro word hword drawn
    obtain ⟨need, result, drawn', hrun⟩ := Expander.completes_expand hword _ mode _ drawn
    obtain ⟨expansion, rfl, -⟩ := hyields _ result _ (hrun 0)
    exact ⟨need, expansion, drawn', hrun⟩

def caves : Compendium :=
  (Compendium.insertAll {} [
    ("cave", { name := "Cave", effect := "\x7b2d4 goblin 1d6\x7d and \x7b1d2 cave\x7d." }),
    ("goblin", {
      name := "Goblin"
      hp := "\x7b2d6\x7d"
      table := some ⟨none, [(⟨1, 4⟩, "asleep"), (⟨6, 6⟩, "with \x7b2 goblin\x7d")], []⟩ })]).1

theorem expand_ok_of_check_caves :
    ∃ report s', (check caves).run (.ofStream (fun _ => 0) 200) = some (report, s') ∧
      report.errors = [] ∧
      ∃ need expansion drawn', ∀ extra,
        ((⟨caves.find, .standard, {}⟩ : Expander).expand ⟨true, true⟩ (.ofEntity "cave" 3)).run
          ⟨surges, 0, need + extra⟩ = some (.ok expansion, ⟨surges, drawn', extra⟩) := by
  have hcheck : ((check caves).run (.ofStream (fun _ => 0) 200)).map (·.1.errors) = some [] := by
    decide +kernel
  obtain ⟨⟨report, s'⟩, hcheck, herrors⟩ := Option.map_eq_some_iff.mp hcheck
  have hentity : ∃ e ∈ caves.entities, e.cleanName = "cave" := by decide +kernel
  obtain ⟨cave, hcave, hname⟩ := hentity
  have hok := (expand_ok_of_check (Compendium.Reachable.empty.insertAll _) (by decide +kernel) hcheck
    herrors hcave {} ⟨true, true⟩ 3).2 _ lively_surges 0
  rw [hname] at hok
  exact ⟨report, s', hcheck, herrors, hok⟩

end Lint

end Tabletop
