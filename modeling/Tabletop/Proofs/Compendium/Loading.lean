import Tabletop.Proofs.Compendium.Folder
import Tabletop.Proofs.Compendium.Written

/-!
# Loading a folder

Each content file is a compendium of its own. Loading a folder is merging these in the order of the paths, and
fails at the first file that cannot be read or has a key of an earlier one.
-/

namespace Tabletop.Compendium

variable {c c' own : Compendium} {loaded : List Compendium} {written : List (String × Entity)}
  {file : Option String} {found before after : List Found} {e : LoadError} {order : Ron.Order} {orders : Orders}

/-! ## One file -/

theorem lacks_filled : c.Lacks (filled (Ascending.ofList written)).entries ↔ c.Lacks written := by
  unfold Lacks
  simp only [filled_map_fst, Ascending.mem_map_fst_ofList]

theorem extendFile_some (c : Compendium) (text : String) :
    c.extendFile (some text) order = c.extend text order := rfl

theorem extendFile_eq_ok (h : extendFile {} file order = .ok own) :
    ∃ written, own = filled (Ascending.ofList written) ∧
      ∀ c : Compendium, c.extendFile file order = c.addWritten written := by
  cases file with
  | none => cases h
  | some text =>
    cases hread : Ron.readContent text order with
    | error fault =>
      rw [extendFile_some, extend, hread] at h
      cases h
    | ok written =>
      have hown := (ofText_eq hread).symm.trans h
      cases hown
      exact ⟨written, rfl, extend_eq hread⟩

theorem extendFile_of_error (h : extendFile {} file order = .error e) (c : Compendium) :
    c.extendFile file order = .error e := by
  cases file with
  | none => exact h
  | some text =>
    rw [extendFile_some] at h ⊢
    cases hread : Ron.readContent text order with
    | ok written => cases (ofText_eq hread).symm.trans h
    | error fault =>
      unfold extend at h ⊢
      rw [hread] at h ⊢
      exact h

section Own

variable (hown : extendFile {} file order = .ok own)
include hown

theorem ascending_own : own.entries.Pairwise fun a b => a.1 < b.1 := by
  obtain ⟨written, rfl, -⟩ := extendFile_eq_ok hown
  exact ascending_filled written

theorem extendFile_of_merge (hmerge : c.merge own = (c', none)) : c.extendFile file order = .ok c' := by
  obtain ⟨hlacks, rfl⟩ := lacks_of_merge (Reachable.empty.extendFile hown) hmerge
  obtain ⟨written, rfl, hextend⟩ := extendFile_eq_ok hown
  rw [hextend, addWritten_of_lacks (lacks_filled.mp hlacks)]

theorem extendFile_of_held (hheld : ¬ c.Lacks own.entries) :
    ∃ key, IsLeast {key | key ∈ own.entries.map Prod.fst ∧ key ∈ c.entries.map Prod.fst} key ∧
      c.extendFile file order = .error (.duplicateKey key) := by
  obtain ⟨written, rfl, hextend⟩ := extendFile_eq_ok hown
  simp only [hextend, filled_map_fst, Ascending.mem_map_fst_ofList]
  exact addWritten_of_held (lacks_filled.not.mp hheld)

end Own

/-! ## Merging one after another -/

/-- Merges compendiums one after another, up to the first key that is there already. -/
def mergeEach (c : Compendium) : List Compendium → Compendium × Option DuplicateKey
  | [] => (c, none)
  | own :: rest =>
    match c.merge own with
    | (c, none) => c.mergeEach rest
    | refused => refused

theorem lacks_append {entries : List (String × Entity)} :
    Lacks ⟨c.entries ++ own.entries⟩ entries ↔ c.Lacks entries ∧ own.Lacks entries := by
  unfold Lacks
  simp only [List.map_append, List.mem_append, not_or, forall₂_and]

theorem mergeEach_of_lacks (hreach : ∀ own ∈ loaded, Reachable own) (hlacks : ∀ own ∈ loaded, c.Lacks own.entries)
    (hdisjoint : loaded.Pairwise fun a b => a.Lacks b.entries) :
    c.mergeEach loaded = (⟨c.entries ++ loaded.flatMap entries⟩, none) := by
  induction loaded generalizing c with
  | nil => simp [mergeEach]
  | cons own rest ih =>
    rw [List.forall_mem_cons] at hreach hlacks
    rw [List.pairwise_cons] at hdisjoint
    have hrest := ih (c := ⟨c.entries ++ own.entries⟩) hreach.2
      (fun later hlater => lacks_append.mpr ⟨hlacks.2 later hlater, hdisjoint.1 later hlater⟩) hdisjoint.2
    unfold mergeEach
    rw [merge_of_lacks hreach.1 hlacks.1, List.flatMap_cons, ← List.append_assoc]
    exact hrest

/-- Files that can be read, each with the compendium it makes on its own, and no key in two of them. -/
structure Apart (orders : Orders) (found : List Found) (loaded : List Compendium) : Prop where
  each : List.Forall₂ (fun file own => extendFile {} file.2 (orders file.1) = .ok own) found loaded
  disjoint : loaded.Pairwise fun a b => a.Lacks b.entries

theorem extendFiles_of_mergeEach
    (heach : List.Forall₂ (fun file own => extendFile {} file.2 (orders file.1) = .ok own) found loaded)
    (hmerge : c.mergeEach loaded = (c', none)) : c.extendFiles found orders = .ok c' := by
  induction heach generalizing c with
  | nil =>
    cases hmerge
    rfl
  | cons hown _ ih =>
    unfold mergeEach at hmerge
    split at hmerge
    next d hfirst =>
      rw [extendFiles, List.foldlM_cons, extendFile_of_merge hown hfirst]
      exact ih hmerge
    next hrefused => exact absurd hmerge (hrefused c')

namespace Apart

theorem exists_file (h : Apart orders found loaded) :
    ∀ own ∈ loaded, ∃ file order, extendFile {} file order = .ok own := by
  obtain ⟨heach, -⟩ := h
  induction heach with
  | nil => exact List.forall_mem_nil _
  | cons hown _ ih => exact List.forall_mem_cons.mpr ⟨⟨_, _, hown⟩, ih⟩

theorem reachable (h : Apart orders found loaded) : ∀ own ∈ loaded, Reachable own := by
  intro own hmem
  obtain ⟨file, order, hown⟩ := h.exists_file own hmem
  exact Reachable.empty.extendFile hown

theorem ascending (h : Apart orders found loaded) : ∀ own ∈ loaded, own.entries.Pairwise fun a b => a.1 < b.1 := by
  intro own hmem
  obtain ⟨file, order, hown⟩ := h.exists_file own hmem
  exact ascending_own hown

theorem mergeEach_eq (h : Apart orders found loaded) :
    ({} : Compendium).mergeEach loaded = (⟨loaded.flatMap entries⟩, none) :=
  mergeEach_of_lacks h.reachable (fun _ _ _ _ => List.not_mem_nil) h.disjoint

theorem extendFiles_eq (h : Apart orders found loaded) :
    extendFiles {} found orders = .ok ⟨loaded.flatMap entries⟩ :=
  extendFiles_of_mergeEach h.each h.mergeEach_eq

theorem nodup (h : Apart orders found loaded) : ((loaded.flatMap entries).map Prod.fst).Nodup := by
  rw [List.map_flatMap, List.nodup_flatMap]
  refine ⟨fun own hmem => (h.reachable own hmem).nodup, ?_⟩
  exact h.disjoint.imp fun hlacks key hkey hother => hlacks key hother hkey

end Apart

/-! ## The first file that cannot be added -/

/-- What is wrong with a file behind files that were read: the fault it has by itself, or the least of its keys
that one of them has too. -/
inductive Faulty (order : Ron.Order) (loaded : List Compendium) (file : Option String) : LoadError → Prop where
  | unread {e : LoadError} : extendFile {} file order = .error e → Faulty order loaded file e
  | repeated {own : Compendium} {key : String} : extendFile {} file order = .ok own →
      IsLeast {key | key ∈ own.entries.map Prod.fst ∧ ∃ earlier ∈ loaded, key ∈ earlier.entries.map Prod.fst} key →
      Faulty order loaded file (.duplicateKey key)

theorem mem_map_fst_flatMap {key : String} :
    key ∈ (loaded.flatMap entries).map Prod.fst ↔ ∃ earlier ∈ loaded, key ∈ earlier.entries.map Prod.fst := by
  rw [List.map_flatMap, List.mem_flatMap]

theorem Apart.concat_or_faulty (h : Apart orders found loaded) (next : Found) :
    (∃ own, Apart orders (found ++ [next]) (loaded ++ [own])) ∨
      ∃ e, Faulty (orders next.1) loaded next.2 e ∧
        extendFile ⟨loaded.flatMap entries⟩ next.2 (orders next.1) = .error e := by
  cases hnext : extendFile {} next.2 (orders next.1) with
  | error e => exact .inr ⟨e, .unread hnext, extendFile_of_error hnext _⟩
  | ok own =>
    by_cases hlacks : Lacks ⟨loaded.flatMap entries⟩ own.entries
    · refine .inl ⟨own, List.rel_append h.each (.cons hnext .nil), ?_⟩
      rw [List.pairwise_append]
      refine ⟨h.disjoint, List.pairwise_singleton _ _, fun earlier hmem last hlast => ?_⟩
      rw [List.mem_singleton.mp hlast]
      exact fun key hkey hheld => hlacks key hkey (mem_map_fst_flatMap.mpr ⟨earlier, hmem, hheld⟩)
    · obtain ⟨key, hleast, hrefused⟩ := extendFile_of_held hnext hlacks
      simp only [mem_map_fst_flatMap] at hleast
      exact .inr ⟨_, .repeated hnext hleast, hrefused⟩

theorem exists_faulty (h : ¬ ∃ loaded, Apart orders found loaded) :
    ∃ before file after loaded e, found = before ++ file :: after ∧ Apart orders before loaded ∧
      Faulty (orders file.1) loaded file.2 e ∧ extendFiles {} found orders = .error e := by
  induction found using List.reverseRecOn with
  | nil => exact absurd ⟨[], .nil, .nil⟩ h
  | append_singleton found next ih =>
    -- The fault is in the next file if all before it go together, and in one of them otherwise.
    by_cases hfound : ∃ loaded, Apart orders found loaded
    · obtain ⟨loaded, hfound⟩ := hfound
      rcases hfound.concat_or_faulty next with ⟨own, hall⟩ | ⟨e, hfaulty, hrefused⟩
      · exact absurd ⟨_, hall⟩ h
      · refine ⟨found, next, [], loaded, e, rfl, hfound, hfaulty, ?_⟩
        rw [extendFiles_append, hfound.extendFiles_eq]
        exact congrArg (· >>= pure) hrefused
    · obtain ⟨before, file, after, loaded, e, rfl, hbefore, hfaulty, hrefused⟩ := ih hfound
      refine ⟨before, file, after ++ [next], loaded, e, by simp, hbefore, hfaulty, ?_⟩
      rw [extendFiles_append, hrefused]
      rfl

/-! ## A whole folder -/

theorem Alike.extendFiles {d : Compendium} (h : c.Alike d) (found : List Found) (orders others : Orders) :
    Agrees (c.extendFiles found orders) (d.extendFiles found others) := by
  induction found generalizing c d with
  | nil => exact .ok h
  | cons file rest ih =>
    unfold Compendium.extendFiles at ih ⊢
    rw [List.foldlM_cons, List.foldlM_cons]
    exact (h.extendFile file.2 _ _).bind fun _ _ hread => ih hread

/--
Content files are read in the order of their paths, and come to what merging their compendiums does, or to the error of
the first that is faulty or has an earlier key. The order in which outcomes are visited shows at most in outcomes under
one key.
-/
theorem ofFolder_in_order {f : Folder} (hf : f.Distinct) :
    ∃ visit : List Found,
      (∀ path text, (path, text) ∈ visit ↔
        f.Holds path text ∧ ∃ folders stem, stem ≠ "" ∧ path = folders ++ [stem ++ ".ron"]) ∧
      (visit.Pairwise fun a b => a.1 < b.1) ∧
      ∀ orders : Orders,
        (∀ loaded, Apart orders visit loaded →
          ofFolder f orders = .ok ⟨loaded.flatMap entries⟩ ∧
            ({} : Compendium).mergeEach loaded = (⟨loaded.flatMap entries⟩, none) ∧
            ((loaded.flatMap entries).map Prod.fst).Nodup ∧
            ∀ own ∈ loaded, own.entries.Pairwise fun a b => a.1 < b.1) ∧
        ((¬ ∃ loaded, Apart orders visit loaded) → ∃ before file after loaded e,
          visit = before ++ file :: after ∧ Apart orders before loaded ∧ Faulty (orders file.1) loaded file.2 e ∧
            ofFolder f orders = .error e) ∧
        (∀ g : Folder, g.Distinct → (∀ path text, g.Holds path text ↔ f.Holds path text) →
          ofFolder g orders = ofFolder f orders) ∧
        ∀ others : Orders, Agrees (ofFolder f orders) (ofFolder f others) ∧
          ∀ c, ofFolder f orders = .ok c → c.Keyed → ofFolder f others = .ok c := by
  refine ⟨contentFiles f, fun path text => ?_, pairwise_contentFiles hf, fun orders => ⟨fun loaded h => ?_, fun h => ?_,
    fun g hg hsame => ?_, fun others => ?_⟩⟩
  · rw [mem_contentFiles, any_getLast?_isContentFile]
  · rw [ofFolder, extendFolder_eq]
    exact ⟨h.extendFiles_eq, h.mergeEach_eq, h.nodup, h.ascending⟩
  · rw [ofFolder, extendFolder_eq]
    exact exists_faulty h
  · unfold ofFolder
    rw [extendFolder_eq, extendFolder_eq, contentFiles_congr hf hg hsame]
  · have hagrees : Agrees (ofFolder f orders) (ofFolder f others) := by
      unfold ofFolder
      rw [extendFolder_eq, extendFolder_eq]
      exact alike_empty.extendFiles _ _ _
    exact ⟨hagrees, fun c hc hkeyed => hagrees.eq_ok hc hkeyed⟩

def gulls : String := "\x7b\"gull\": (name: \"Gull\")\x7d"
def deep : String := "\x7b\"eel\": (name: \"Eel\"), \"bat\": (name: \"Bat\")\x7d"

def coast : Folder :=
  .folder "caves" (.file "deep.ron" (some deep) .empty)
    (.file "notes.txt" (some "Beware!") (.file "birds.ron" (some gulls) .empty))

theorem ofFolder_in_order_coast :
    coast.Distinct ∧ ∃ c, ofFolder coast = .ok c ∧ c.entries.map Prod.fst = ["gull", "bat", "eel"] := by
  have hdistinct : coast.Distinct := by decide
  obtain ⟨visit, hmem, hascending, hload⟩ := ofFolder_in_order hdistinct
  obtain rfl : visit = [(["birds.ron"], some gulls), (["caves", "deep.ron"], some deep)] := by
    apply eq_of_ascending hascending (by decide)
    rintro ⟨path, text⟩
    rw [hmem, ← any_getLast?_isContentFile]
    simp only [coast, Folder.holds_file_iff, Folder.holds_folder_iff, Folder.not_holds_empty, List.mem_cons,
      List.not_mem_nil, or_false, Prod.mk.injEq]
    constructor
    · rintro ⟨⟨_, rfl, rfl, rfl⟩ | ⟨rfl, -⟩ | ⟨rfl, rfl⟩, hcontent⟩
      · exact .inr ⟨rfl, rfl⟩
      · exact absurd hcontent (by decide)
      · exact .inl ⟨rfl, rfl⟩
    · rintro (⟨rfl, rfl⟩ | ⟨rfl, rfl⟩)
      · exact ⟨.inr (.inr ⟨rfl, rfl⟩), by decide⟩
      · exact ⟨.inl ⟨_, rfl, rfl, rfl⟩, by decide⟩
  have hgulls : Ron.readContent gulls = .ok [("gull", { name := "Gull" })] := by decide +kernel
  have hdeep : Ron.readContent deep = .ok [("eel", { name := "Eel" }), ("bat", { name := "Bat" })] := by decide +kernel
  have heach : List.Forall₂ (fun file own => extendFile {} file.2 .byKey = .ok own)
      [(["birds.ron"], some gulls), (["caves", "deep.ron"], some deep)] _ :=
    .cons (ofText_eq hgulls) (.cons (ofText_eq hdeep) .nil)
  exact ⟨hdistinct, _, ((hload fun _ => .byKey).1 _ ⟨heach, by unfold Lacks; decide⟩).1, by decide⟩

end Tabletop.Compendium
