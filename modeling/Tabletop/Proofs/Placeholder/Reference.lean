import Tabletop.Proofs.Compendium.History
import Tabletop.Proofs.Placeholder.Written

/-!
# References by name

The placeholder for an entity is read back from its own token just if the name holds no digits. Digits end a name
in a token, where they are a quantity or a result.
-/

namespace Tabletop

open Tabletop.Random

namespace Placeholder

/-- A name, alone in its braces. -/
def reference (name : String) : String := "\x7b" ++ name ++ "\x7d"

theorem written_nothing (name : String) : written .nothing name .nothing = reference name := by
  simp [written, reference, Lead.text, Trail.text]

/-! ## Names without digits -/

theorem isPlain_of_undigited {name : String} (h : ∀ c ∈ (Name.normalize name).toList, Text.isAsciiDigit c = false) :
    ∀ c ∈ (Name.normalize name).toList, Name.isPlain c = true := by
  intro c hc
  rcases Name.isKept_iff.mp (Name.isKept_of_mem_normalize hc) with hplain | hdigit
  · exact hplain
  · rw [h c hc] at hdigit
    cases hdigit

section Plain

variable {name : String} (hname : name ≠ "") (hplain : ∀ c ∈ name.toList, Name.isPlain c = true)
include hname hplain

theorem parse_token_ofEntity {quantity : Nat} (hquantity : quantity < 0x100000000) :
    parse (ofEntity name quantity).token = pure [ofEntity name quantity] := by
  have htoken : written (.number quantity hquantity) name .nothing = (ofEntity name quantity).token := by
    simp [written, ofEntity, Lead.text, Trail.text, String.append_assoc]
  have hread := parse_written (.number quantity hquantity) .nothing hname hplain
  rw [htoken] at hread
  simpa [Lead.quantity, Lead.diceText, Trail.result, Trail.diceText, ofEntity] using hread

theorem parse_reference : parse (reference name) = pure [⟨reference name, "", name, "", 1, none⟩] := by
  have hread := parse_written .nothing .nothing hname hplain
  rw [written_nothing] at hread
  simpa [Lead.quantity, Lead.diceText, Trail.result, Trail.diceText] using hread

theorem outline_reference : outline (reference name).toList = ⟨.absent, name, .absent⟩ := by
  have hne : name.toList ≠ [] := by simpa using hname
  have houtline := outline_written hplain hne .nothing .nothing
  rw [← toList_written, written_nothing, String.ofList_toList] at houtline
  exact houtline

end Plain

/-! ## Names of entities -/

theorem undigited_of_parse {token : String} {p : Placeholder} (h : parse token = pure [p]) :
    ∀ c ∈ p.entity.toList, Text.isAsciiDigit c = false := by
  have hrun : (parse token).run (.ofStream (fun _ => 0) 0) = some (.ok [p], .ofStream (fun _ => 0) 0) := by
    rw [h, Roll.run_pure]
  obtain ⟨read, -, hfrom⟩ := exists_token (parse_ok hrun) List.mem_cons_self
  intro c hc
  rw [hfrom.entity_eq] at hc
  exact isAsciiDigit_of_isNameChar (isNameChar_of_isPlain (isPlain_of_mem_entity hc))

theorem find_reference {name : String} (hname : name ≠ "") (hplain : ∀ c ∈ name.toList, Name.isPlain c = true)
    {c : Compendium} {e : Entity} (he : e ∈ c.entities) (hentity : e.cleanName = name) (hone : c.sharing name = 1)
    {p : Placeholder} {token : List Char} (hfrom : ReadFrom token p) (htoken : p.token = reference name) :
    c.find p.entity = .ok e := by
  have hself : Name.normalize name = name :=
    Name.normalize_eq_self fun c hc => Name.isKept_iff.mpr (.inl (hplain c hc))
  have hentity_eq : p.entity = name := by
    have houtline := outline_reference hname hplain
    rw [← htoken, hfrom.token_eq, String.toList_ofList] at houtline
    rw [hfrom.entity_eq, houtline]
  rw [hentity_eq]
  exact Compendium.find_eq_ok he (by rw [hself, hentity]) (by rw [hself, hone])

/-- The placeholder for an entity is read from its token as itself, without a roll, just if the name holds no digits. -/
theorem parse_ofEntity {display name : String} (hdisplay : Name.normalize display = name) (hname : name ≠ "")
    {quantity : Nat} (hquantity : quantity < 0x100000000) :
    (parse (ofEntity name quantity).token = pure [ofEntity name quantity] ↔
      ∀ c ∈ name.toList, Text.isAsciiDigit c = false) ∧
    ((∀ c ∈ name.toList, Text.isAsciiDigit c = false) →
      ∀ (c : Compendium), ∀ e ∈ c.entities, e.cleanName = name → c.sharing name = 1 →
        parse (reference name) = pure [⟨reference name, "", name, "", 1, none⟩] ∧
        ∀ text s ps s', (parse text).run s = some (.ok ps, s') → (reference name).toList ∈ tokens text.toList →
          (∃ p ∈ ps, p.token = reference name) ∧ ∀ p ∈ ps, p.token = reference name → c.find p.entity = .ok e) := by
  subst hdisplay
  refine ⟨⟨undigited_of_parse, fun h => ?_⟩, fun h c e he hentity hone => ⟨?_, ?_⟩⟩
  · exact parse_token_ofEntity hname (isPlain_of_undigited h) hquantity
  · exact parse_reference hname (isPlain_of_undigited h)
  · intro text s ps s' hread hmem
    have hplain := isPlain_of_undigited h
    constructor
    · have hkept : (reference (Name.normalize display)).toList ∈ keptTokens text.toList := by
        refine List.mem_filter.mpr ⟨hmem, ?_⟩
        rw [outline_reference hname hplain]
        simp [Outline.isKept, hname]
      obtain ⟨p, hp, hfrom⟩ := exists_placeholder (parse_ok hread) hkept
      exact ⟨p, hp, by rw [hfrom.token_eq, String.ofList_toList]⟩
    · intro p hp htoken
      obtain ⟨token, -, hfrom⟩ := exists_token (parse_ok hread) hp
      exact find_reference hname hplain he hentity hone hfrom htoken

def guard : Entity := Compendium.prepared { name := " D-Day  Guard!" }

def guarded : String := "A \x7bd_day__guard\x7d of \x7b2 d_day__guard\x7d."

theorem parse_ofEntity_guard :
    parse "\x7b0 d_day__guard\x7d" = pure [ofEntity "d_day__guard" 0] ∧
      ∃ ps s', (parse guarded).run (.ofStream (fun _ => 0) 0) = some (.ok ps, s') ∧
        ∃ p ∈ ps, p.token = "\x7bd_day__guard\x7d" ∧ Compendium.find ⟨[("guard", guard)]⟩ p.entity = .ok guard := by
  have hdisplay : Name.normalize " D-Day  Guard!" = "d_day__guard" := by decide
  have hname : "d_day__guard".toList.all isNameChar = true := by decide
  have hdigits : ∀ c ∈ "d_day__guard".toList, Text.isAsciiDigit c = false := fun c hc =>
    isAsciiDigit_of_isNameChar (List.all_eq_true.mp hname c hc)
  obtain ⟨hself, hfind⟩ := parse_ofEntity hdisplay (by decide) (show 0 < 0x100000000 by decide)
  refine ⟨hself.mpr hdigits, ?_⟩
  have hvalue : (((parse guarded).run (.ofStream (fun _ => 0) 0)).map fun p => p.1.toOption.map List.length) =
      some (some 2) := by
    decide +kernel
  obtain ⟨ps, s', hrun, -⟩ := Roll.exists_run_of_map hvalue
  obtain ⟨-, hread⟩ := hfind hdigits ⟨[("guard", guard)]⟩ guard (by simp [Compendium.entities]) hdisplay (by decide)
  obtain ⟨⟨p, hp, htoken⟩, hall⟩ := hread guarded _ ps s' hrun (by decide)
  exact ⟨ps, s', hrun, p, hp, htoken, hall p hp htoken⟩

/-- The digits of a name are read as a result behind the rest of it. -/
theorem parse_ofEntity_area :
    Name.normalize "Area 51" = "area_51" ∧ (ofEntity "area_51" 1).token = "\x7b1 area_51\x7d" ∧
      parse "\x7b1 area_51\x7d" = pure [⟨"\x7b1 area_51\x7d", "", "area_", "", 1, some 51⟩] ∧
      parse "\x7b1 area_51\x7d" ≠ pure [ofEntity "area_51" 1] := by
  have houtline : outline ('{' :: "1 area_51".toList ++ ['}']) = ⟨.digits ['1'], "area_", .digits ['5', '1']⟩ := by
    decide
  have htoken : String.ofList ('{' :: "1 area_51".toList ++ ['}']) = "\x7b1 area_51\x7d" := by decide
  have hquantity : Text.count? ['1'] = some 1 := by decide
  have hresult : Text.integer? ['5', '1'] = some 51 := by decide
  have hread : parse "\x7b1 area_51\x7d" = pure [⟨"\x7b1 area_51\x7d", "", "area_", "", 1, some 51⟩] := by
    rw [← htoken, parse_braced (by decide) houtline (by decide)]
    simp only [Amount.quantity, Amount.result, hquantity, hresult, pure_bind, Amount.diceText]
  refine ⟨by decide, by decide, hread, fun h => ?_⟩
  exact absurd (undigited_of_parse h '5' (by decide)) (by decide)

end Placeholder

end Tabletop
