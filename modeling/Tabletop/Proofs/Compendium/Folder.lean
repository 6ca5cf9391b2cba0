import Mathlib.Data.List.Lex
import Mathlib.Data.List.Sort
import Mathlib.Data.String.Basic
import Tabletop.Compendium.Loading

/-!
# The order of files

The content files below a folder are read in the order of their paths, whatever order the folders list them in.
Where two paths part, the names there decide, so a folder is read where its own name stands.
-/

namespace Tabletop

namespace Folder

variable {f g inside rest : Folder} {name : String} {path : List String} {text other : Option String}

/-- A file stands at the end of a path of names. -/
inductive Holds : Folder → List String → Option String → Prop where
  | here {name : String} {text : Option String} {rest : Folder} : Holds (.file name text rest) [name] text
  | inside {name : String} {path : List String} {text : Option String} {inside rest : Folder} :
      Holds inside path text → Holds (.folder name inside rest) (name :: path) text
  | behindFile {name : String} {path : List String} {text other : Option String} {rest : Folder} :
      Holds rest path text → Holds (.file name other rest) path text
  | behindFolder {name : String} {path : List String} {text : Option String} {inside rest : Folder} :
      Holds rest path text → Holds (.folder name inside rest) path text

/-- The names of the entries of a folder, as they are listed. -/
def names : Folder → List String
  | .empty => []
  | .file name _ rest => name :: names rest
  | .folder name _ rest => name :: names rest

/-- No folder has two entries of one name. -/
def Distinct : Folder → Prop
  | .empty => True
  | .file name _ rest => name ∉ rest.names ∧ rest.Distinct
  | .folder name inside rest => name ∉ rest.names ∧ inside.Distinct ∧ rest.Distinct

instance decidableDistinct : (f : Folder) → Decidable f.Distinct
  | .empty => inferInstanceAs (Decidable True)
  | .file name _ rest =>
    have := decidableDistinct rest
    inferInstanceAs (Decidable (name ∉ rest.names ∧ rest.Distinct))
  | .folder name inside rest =>
    have := decidableDistinct inside
    have := decidableDistinct rest
    inferInstanceAs (Decidable (name ∉ rest.names ∧ inside.Distinct ∧ rest.Distinct))

theorem not_holds_empty : ¬ Holds .empty path text := fun h => nomatch h

theorem holds_file_iff :
    Holds (.file name other rest) path text ↔ (path = [name] ∧ text = other) ∨ rest.Holds path text := by
  constructor
  · intro h
    cases h with
    | here => exact .inl ⟨rfl, rfl⟩
    | behindFile h => exact .inr h
  · rintro (⟨rfl, rfl⟩ | h)
    · exact .here
    · exact .behindFile h

theorem holds_folder_iff :
    Holds (.folder name inside rest) path text ↔
      (∃ below, path = name :: below ∧ inside.Holds below text) ∨ rest.Holds path text := by
  constructor
  · intro h
    cases h with
    | inside h => exact .inl ⟨_, rfl, h⟩
    | behindFolder h => exact .inr h
  · rintro (⟨below, rfl, h⟩ | h)
    · exact .inside h
    · exact .behindFolder h

theorem Holds.ne_nil (h : f.Holds path text) : path ≠ [] := by
  induction h with
  | here => exact List.cons_ne_nil _ _
  | inside => exact List.cons_ne_nil _ _
  | behindFile _ ih => exact ih
  | behindFolder _ ih => exact ih

end Folder

namespace Compendium

/-! ## Content files -/

theorem isContentFile_iff {name : String} :
    isContentFile name = true ↔ ∃ stem, stem ≠ "" ∧ name = stem ++ ".ron" := by
  unfold isContentFile
  dsimp only
  rw [Bool.and_eq_true, decide_eq_true_iff, Bool.not_eq_true', List.isEmpty_eq_false_iff]
  constructor
  · rintro ⟨hending, hrest⟩
    have hsplit := List.takeWhile_append_dropWhile (p := (· ≠ '.')) (l := name.toList.reverse)
    cases hdrop : name.toList.reverse.dropWhile (· ≠ '.') with
    | nil =>
      rw [hdrop] at hrest
      exact absurd rfl hrest
    | cons c stem =>
      have hstop := List.head_dropWhile_not (· ≠ '.') (l := name.toList.reverse) (hdrop ▸ List.cons_ne_nil c stem)
      simp only [hdrop, List.head_cons] at hstop
      have hdot : c = '.' := by simpa using hstop
      rw [hdrop] at hrest
      refine ⟨String.ofList stem.reverse, by simpa using hrest, ?_⟩
      rw [hending, hdrop, hdot] at hsplit
      rw [← String.toList_inj, ← List.reverse_inj, ← hsplit]
      simp
  · rintro ⟨stem, hstem, rfl⟩
    have hreverse : (stem ++ ".ron").toList.reverse = "nor".toList ++ '.' :: stem.toList.reverse := by simp
    have hletters : ∀ c ∈ "nor".toList, decide (c ≠ '.') = true := by simp
    rw [hreverse, List.takeWhile_append_of_pos hletters, List.dropWhile_append_of_pos hletters]
    simpa using hstem

theorem any_getLast?_isContentFile {path : List String} :
    path.getLast?.any isContentFile = true ↔ ∃ folders stem, stem ≠ "" ∧ path = folders ++ [stem ++ ".ron"] := by
  rw [Option.any_eq_true]
  constructor
  · rintro ⟨name, hlast, hcontent⟩
    obtain ⟨stem, hstem, rfl⟩ := isContentFile_iff.mp hcontent
    obtain ⟨folders, rfl⟩ := List.getLast?_eq_some_iff.mp hlast
    exact ⟨folders, stem, hstem, rfl⟩
  · rintro ⟨folders, stem, hstem, rfl⟩
    exact ⟨_, List.getLast?_concat, isContentFile_iff.mpr ⟨stem, hstem, rfl⟩⟩

/-- A file as it is found below a folder: the names that lead to it, and its text if it can be read. -/
abbrev Found := List String × Option String

/-- The files of all entries, entry after entry in the order of their names. -/
def gathered (found : List (String × List Found)) : List Found :=
  (found.mergeSort fun a b => a.1 ≤ b.1).flatMap Prod.snd

/-- The content files at each entry of a folder, by the name of the entry. -/
def contentEntries : Folder → List (String × List Found)
  | .empty => []
  | .file name text rest => (name, if isContentFile name then [([name], text)] else []) :: contentEntries rest
  | .folder name inside rest =>
    (name, (gathered (contentEntries inside)).map fun (path, text) => (name :: path, text)) :: contentEntries rest

/-- The content files below a folder, in the order in which they are read. -/
def contentFiles (f : Folder) : List Found := gathered (contentEntries f)

/-! ## Visits -/

/-- Reads files one after another. -/
def extendFiles (c : Compendium) (found : List Found) (orders : Orders) : Except LoadError Compendium :=
  found.foldlM (fun c file => c.extendFile file.2 (orders file.1)) c

theorem extendFiles_append (c : Compendium) (before after : List Found) (orders : Orders) :
    c.extendFiles (before ++ after) orders =
      c.extendFiles before orders >>= fun c => c.extendFiles after orders :=
  List.foldlM_append

theorem inOrder_eq (found : List (String × List Found)) (orders : Orders) :
    inOrder (found.map fun entry => (entry.1, fun c => c.extendFiles entry.2 orders)) =
      fun c => c.extendFiles (gathered found) orders := by
  funext c
  unfold inOrder gathered
  have hsort := List.map_mergeSort (r := fun a b : String × List Found => decide (a.1 ≤ b.1))
    (s := fun a b : String × Visit => decide (a.1 ≤ b.1))
    (f := fun entry => (entry.1, fun c => c.extendFiles entry.2 orders)) (l := found) fun _ _ _ _ => rfl
  rw [← hsort, List.foldlM_map]
  generalize found.mergeSort (fun a b => a.1 ≤ b.1) = sorted
  induction sorted generalizing c with
  | nil => rfl
  | cons entry rest ih =>
    rw [List.foldlM_cons, List.flatMap_cons, extendFiles_append]
    exact bind_congr ih

theorem visits_eq (f : Folder) (orders : Orders) :
    visits orders f = (contentEntries f).map fun entry => (entry.1, fun c => c.extendFiles entry.2 orders) := by
  induction f generalizing orders with
  | empty => rfl
  | file name text rest ih =>
    unfold visits contentEntries
    rw [ih, List.map_cons]
    congr 2
    funext c
    split
    · exact (bind_pure _).symm
    · rfl
  | folder name inside rest ihInside ihRest =>
    unfold visits contentEntries
    rw [ihInside, ihRest, inOrder_eq, List.map_cons]
    refine congrArg₂ List.cons (congrArg (Prod.mk name) (funext fun c => ?_)) rfl
    unfold extendFiles
    rw [List.foldlM_map]

/-- Going through a folder is reading its content files one after another. -/
theorem extendFolder_eq (c : Compendium) (f : Folder) (orders : Orders) :
    c.extendFolder f orders = c.extendFiles (contentFiles f) orders := by
  unfold extendFolder
  rw [visits_eq, inOrder_eq]
  rfl

/-! ## Which files are read -/

theorem mem_gathered {file : Found} {found : List (String × List Found)} :
    file ∈ gathered found ↔ ∃ entry ∈ found, file ∈ entry.2 := by
  unfold gathered
  rw [List.mem_flatMap]
  simp only [List.mem_mergeSort]

theorem mem_contentFiles {f : Folder} {path : List String} {text : Option String} :
    (path, text) ∈ contentFiles f ↔ f.Holds path text ∧ path.getLast?.any isContentFile := by
  unfold contentFiles
  rw [mem_gathered]
  induction f generalizing path with
  | empty => simp [contentEntries, Folder.not_holds_empty]
  | file name other rest ih =>
    unfold contentEntries
    rw [List.exists_mem_cons_iff, ih, Folder.holds_file_iff, or_and_right]
    refine or_congr ?_ Iff.rfl
    split
    next hcontent =>
      rw [List.mem_singleton, Prod.mk.injEq]
      refine ⟨fun h => ⟨h, ?_⟩, fun h => h.1⟩
      simp [h.1, hcontent]
    next hcontent =>
      refine ⟨fun h => absurd h List.not_mem_nil, ?_⟩
      rintro ⟨⟨rfl, rfl⟩, h⟩
      exact absurd h hcontent
  | folder name inside rest ihInside ihRest =>
    unfold contentEntries
    rw [List.exists_mem_cons_iff, ihRest, Folder.holds_folder_iff, or_and_right]
    refine or_congr ?_ Iff.rfl
    dsimp only
    rw [List.mem_map]
    constructor
    · rintro ⟨⟨below, found⟩, hmem, heq⟩
      cases heq
      obtain ⟨hholds, hcontent⟩ := ihInside.mp (mem_gathered.mp hmem)
      refine ⟨⟨below, rfl, hholds⟩, ?_⟩
      rwa [List.getLast?_cons_of_ne_nil hholds.ne_nil]
    · rintro ⟨⟨below, rfl, hholds⟩, hcontent⟩
      rw [List.getLast?_cons_of_ne_nil hholds.ne_nil] at hcontent
      exact ⟨(below, text), mem_gathered.mpr (ihInside.mpr ⟨hholds, hcontent⟩), rfl⟩

/-! ## In which order -/

/-- The entries have different names, and the files of each stand below it, in the order of their paths. -/
structure Ordered (found : List (String × List Found)) : Prop where
  nodup : (found.map Prod.fst).Nodup
  ascending : ∀ entry ∈ found, entry.2.Pairwise fun a b => a.1 < b.1
  below : ∀ entry ∈ found, ∀ file ∈ entry.2, file.1.head? = some entry.1

theorem Ordered.pairwise_gathered {found : List (String × List Found)} (h : Ordered found) :
    (gathered found).Pairwise fun a b => a.1 < b.1 := by
  have hperm := List.mergeSort_perm found fun a b => a.1 ≤ b.1
  have hnodup : ((found.mergeSort fun a b => a.1 ≤ b.1).map Prod.fst).Nodup :=
    (hperm.map Prod.fst).nodup_iff.mpr h.nodup
  have hsorted : (found.mergeSort fun a b => a.1 ≤ b.1).Pairwise fun a b => a.1 ≤ b.1 := by
    have hsorted : (found.mergeSort fun a b => a.1 ≤ b.1).Pairwise fun a b => decide (a.1 ≤ b.1) = true := by
      apply List.pairwise_mergeSort
      · intro a b c hab hbc
        rw [decide_eq_true_eq] at *
        exact le_trans hab hbc
      · intro a b
        simpa using le_total a.1 b.1
    exact hsorted.imp of_decide_eq_true
  unfold gathered
  rw [List.pairwise_flatMap]
  refine ⟨fun entry hentry => h.ascending entry (hperm.mem_iff.mp hentry), ?_⟩
  unfold List.Nodup at hnodup
  rw [List.pairwise_map] at hnodup
  -- Files of different entries part in the first name already.
  refine (hsorted.and hnodup).imp_of_mem ?_
  rintro a b ha hb ⟨hle, hne⟩ ⟨pathA, textA⟩ hfileA ⟨pathB, textB⟩ hfileB
  have hheadA := h.below a (hperm.mem_iff.mp ha) _ hfileA
  have hheadB := h.below b (hperm.mem_iff.mp hb) _ hfileB
  obtain ⟨belowA, rfl⟩ := List.head?_eq_some_iff.mp hheadA
  obtain ⟨belowB, rfl⟩ := List.head?_eq_some_iff.mp hheadB
  exact List.cons_lt_cons_iff.mpr (.inl (lt_of_le_of_ne hle hne))

theorem map_fst_contentEntries (f : Folder) : (contentEntries f).map Prod.fst = f.names := by
  induction f with
  | empty => rfl
  | file name text rest ih =>
    unfold contentEntries Folder.names
    rw [List.map_cons, ih]
  | folder name inside rest _ ih =>
    unfold contentEntries Folder.names
    rw [List.map_cons, ih]

theorem Ordered.cons {name : String} {files : List Found} {found : List (String × List Found)}
    (hnew : name ∉ found.map Prod.fst) (hascending : files.Pairwise fun a b => a.1 < b.1)
    (hbelow : ∀ file ∈ files, file.1.head? = some name) (h : Ordered found) : Ordered ((name, files) :: found) :=
  ⟨List.nodup_cons.mpr ⟨hnew, h.nodup⟩, List.forall_mem_cons.mpr ⟨hascending, h.ascending⟩,
    List.forall_mem_cons.mpr ⟨hbelow, h.below⟩⟩

theorem ordered_contentEntries {f : Folder} (h : f.Distinct) : Ordered (contentEntries f) := by
  induction f with
  | empty => exact ⟨List.nodup_nil, List.forall_mem_nil _, List.forall_mem_nil _⟩
  | file name text rest ih =>
    unfold contentEntries
    refine (ih h.2).cons (map_fst_contentEntries rest ▸ h.1) ?_ ?_
    · split <;> simp
    · split <;> simp
  | folder name inside rest ihInside ihRest =>
    unfold contentEntries
    refine (ihRest h.2.2).cons (map_fst_contentEntries rest ▸ h.1) ?_ ?_
    · rw [List.pairwise_map]
      exact (ihInside h.2.1).pairwise_gathered.imp List.cons_lt_cons_self.mpr
    · rw [List.forall_mem_map]
      exact fun _ _ => rfl

theorem pairwise_contentFiles {f : Folder} (h : f.Distinct) : (contentFiles f).Pairwise fun a b => a.1 < b.1 :=
  (ordered_contentEntries h).pairwise_gathered

theorem eq_of_ascending {found others : List Found} (hfound : found.Pairwise fun a b => a.1 < b.1)
    (hothers : others.Pairwise fun a b => a.1 < b.1) (hmem : ∀ file, file ∈ found ↔ file ∈ others) :
    found = others := by
  have hantisymm : Std.Antisymm fun a b : Found => a.1 < b.1 := ⟨fun _ _ hab hba => absurd hba (lt_asymm hab)⟩
  have hirrefl : Std.Irrefl fun a b : Found => a.1 < b.1 := ⟨fun a => lt_irrefl a.1⟩
  exact hfound.eq_of_mem_iff hothers hmem

theorem contentFiles_congr {f g : Folder} (hf : f.Distinct) (hg : g.Distinct)
    (hsame : ∀ path text, g.Holds path text ↔ f.Holds path text) : contentFiles g = contentFiles f := by
  apply eq_of_ascending (pairwise_contentFiles hg) (pairwise_contentFiles hf)
  rintro ⟨path, text⟩
  rw [mem_contentFiles, mem_contentFiles, hsame]

end Compendium

end Tabletop
