import Mathlib.Data.List.Lex
import Mathlib.Data.String.Basic
import NameResolution.Proofs.Discovery

/-!
# Which documents are found

The documents below a directory are told apart from its other files by the names that lead to them. They are found
whole and in the order of their paths, however the directories list their entries.
-/
namespace NameResolution

namespace FileTree

/-- The names lead down from the tree to a file. -/
inductive HasFile : FileTree → List String → Prop
  | here (content : ByteArray) : HasFile (.file content) []
  | inside {entries : List (String × FileTree)} {name : String} {t : FileTree} {names : List String}
      (listed : (name, t) ∈ entries) (rest : HasFile t names) : HasFile (.dir entries) (name :: names)

/-- The same tree, but for the order in which directories list their entries. -/
inductive Relisted : FileTree → FileTree → Prop
  | refl (t : FileTree) : Relisted t t
  | order {entries entries' : List (String × FileTree)} (h : entries.Perm entries') :
      Relisted (.dir entries) (.dir entries')
  | entry {name : String} {t t' : FileTree} (before after : List (String × FileTree)) (h : Relisted t t') :
      Relisted (.dir (before ++ (name, t) :: after)) (.dir (before ++ (name, t') :: after))
  | trans {t t' t'' : FileTree} (h : Relisted t t') (h' : Relisted t' t'') : Relisted t t''

theorem hasFile_dir_cons_iff {entries : List (String × FileTree)} {name : String} {names : List String} :
    (dir entries).HasFile (name :: names) ↔ ∃ t, (name, t) ∈ entries ∧ t.HasFile names := by
  constructor
  · rintro (_ | ⟨listed, rest⟩)
    exact ⟨_, listed, rest⟩
  · rintro ⟨t, listed, rest⟩
    exact .inside listed rest

theorem Relisted.isDir {t t' : FileTree} (h : t.Relisted t') (ht : ∃ entries, t = dir entries) :
    ∃ entries, t' = dir entries := by
  induction h with
  | refl t => exact ht
  | order h => exact ⟨_, rfl⟩
  | entry before after h _ => exact ⟨_, rfl⟩
  | trans _ _ ih ih' => exact ih' (ih ht)

end FileTree

namespace Text
variable {c : Char}

theorem afterLast?_of_not_mem {cs : List Char} (h : c ∉ cs) : afterLast? [c] cs = none := by
  induction cs with
  | nil => rfl
  | cons d cs ih =>
    rw [List.mem_cons, not_or] at h
    rw [afterLast?, ih h.2]
    simp [h.1]

theorem afterLast?_append {rest : List Char} (h : c ∉ rest) (front : List Char) :
    afterLast? [c] (front ++ c :: rest) = some rest := by
  induction front with
  | nil => simp [afterLast?, afterLast?_of_not_mem h]
  | cons d front ih => rw [List.cons_append, afterLast?, ih]

theorem exists_of_afterLast? {cs rest : List Char} (h : afterLast? [c] cs = some rest) :
    ∃ front, cs = front ++ c :: rest := by
  induction cs with
  | nil => cases h
  | cons d cs ih =>
    rw [afterLast?] at h
    split at h
    next found hfound =>
      obtain ⟨front, hfront⟩ := ih (hfound.trans h)
      exact ⟨d :: front, by rw [hfront, List.cons_append]⟩
    next hnone =>
      split at h
      next hhere =>
        cases h
        have hd : c = d := by simpa using hhere
        exact ⟨[], by simp [hd]⟩
      next => cases h

end Text

namespace Path

/-- An extension stands behind a dot that does not begin the name. -/
theorem exists_stem_of_extension {name extension : String} (h : extensionOfName? name = some extension) :
    ∃ stem : String, stem ≠ "" ∧ name = stem ++ ("." ++ extension) := by
  unfold extensionOfName? at h
  split at h
  next => cases h
  next =>
    split at h
    next rest hrest =>
      split at h
      next hlt =>
        cases h
        obtain ⟨front, hfront⟩ := Text.exists_of_afterLast? hrest
        refine ⟨String.ofList front, ?_, String.toList_injective (by simp [hfront])⟩
        intro hempty
        rw [← String.length_toList, hfront, String.ofList_eq_empty_iff.mp hempty] at hlt
        exact absurd hlt (lt_irrefl _)
      next => cases h
    next => cases h

theorem extensionOfName?_append {stem extension : String} (hstem : stem ≠ "") (hne : extension ≠ "")
    (hdot : '.' ∉ extension.toList) : extensionOfName? (stem ++ ("." ++ extension)) = some extension := by
  have hpos : 0 < stem.length := Nat.pos_of_ne_zero (by simpa using hstem)
  have hpos' : 0 < extension.length := Nat.pos_of_ne_zero (by simpa using hne)
  have hlength : (stem ++ ("." ++ extension)).length = stem.length + (1 + extension.length) := by
    rw [String.length_append, String.length_append]
    rfl
  have hdots : stem ++ ("." ++ extension) ≠ ".." := by
    intro heq
    rw [heq] at hlength
    change 2 = _ at hlength
    omega
  have hafter : Text.afterLast? ['.'] (stem ++ ("." ++ extension)).toList = some extension.toList := by
    rw [String.toList_append, String.toList_append]
    exact Text.afterLast?_append hdot stem.toList
  have hlt : extension.toList.length + 1 < (stem ++ ("." ++ extension)).length := by
    rw [hlength, String.length_toList]
    omega
  simp only [extensionOfName?, hdots, hafter, hlt, if_false, if_true, String.ofList_toList]

end Path

namespace Discovery

theorem isDocumentName_iff {name : String} :
    isDocumentName name = true ↔ ∃ stem : String, stem ≠ "" ∧ name = stem ++ ".json" := by
  rw [isDocumentName, beq_iff_eq]
  constructor
  · exact Path.exists_stem_of_extension
  · rintro ⟨stem, hstem, rfl⟩
    have hextension : Path.extensionOfName? (stem ++ ("." ++ "json")) = some "json" :=
      Path.extensionOfName?_append hstem (by decide) (by decide)
    exact hextension

/-- A file below a directory whose name ends in `.json` and has something in front of that. Neither the file nor a
directory on the way to it is hidden. -/
structure IsDocument (entries : List (String × FileTree)) (names : List String) : Prop where
  file : (FileTree.dir entries).HasFile names
  visible : ∀ name ∈ names, isHidden name = false
  extension : ∃ stem : String, stem ≠ "" ∧ names.getLast? = some (stem ++ ".json")

theorem mem_documentsIn_iff {entries : List (String × FileTree)} {name : String} {names : List String} :
    name :: names ∈ documentsIn entries ↔
      isHidden name = false ∧ ∃ t, (name, t) ∈ entries ∧ name :: names ∈ documentsAt name t := by
  rw [documentsIn_eq_flatMap, List.mem_flatMap]
  constructor
  · rintro ⟨⟨name', t⟩, he, hmem⟩
    have hhead := head_of_mem_documentsAt (mem_documentsAt_of_listed hmem)
    obtain rfl : name = name' := Option.some.inj hhead
    split at hmem
    next => cases hmem
    next hvisible => exact ⟨by simpa using hvisible, t, he, hmem⟩
  · rintro ⟨hvisible, t, he, hmem⟩
    refine ⟨(name, t), he, ?_⟩
    simpa [hvisible] using hmem

theorem nil_not_mem_documentsIn (entries : List (String × FileTree)) : [] ∉ documentsIn entries := by
  intro h
  obtain ⟨e, -, hmem⟩ := mem_documentsIn h
  cases head_of_mem_documentsAt hmem

/-- The documents at or below an entry. -/
theorem mem_documentsAt_iff {name : String} {t : FileTree} {names : List String} :
    name :: names ∈ documentsAt name t ↔
      t.HasFile names ∧ (∀ x ∈ names, isHidden x = false) ∧
        ∃ last, (name :: names).getLast? = some last ∧ isDocumentName last = true := by
  induction names generalizing name t with
  | nil =>
    cases t with
    | file content =>
      have hfile : (FileTree.file content).HasFile [] := .here content
      by_cases hname : isDocumentName name = true <;> simp [documentsAt, hname, hfile]
    | dir entries =>
      have hnone : ¬ (FileTree.dir entries).HasFile [] := by rintro ⟨⟩
      simp [documentsAt, hnone, nil_not_mem_documentsIn]
  | cons x names ih =>
    cases t with
    | file content =>
      have hnone : ¬ (FileTree.file content).HasFile (x :: names) := by rintro ⟨⟩
      by_cases hname : isDocumentName name = true <;> simp [documentsAt, hname, hnone]
    | dir entries =>
      have hinside : name :: x :: names ∈ documentsAt name (.dir entries) ↔ x :: names ∈ documentsIn entries := by
        simp [documentsAt]
      rw [hinside, mem_documentsIn_iff, FileTree.hasFile_dir_cons_iff, List.forall_mem_cons, List.getLast?_cons_cons]
      simp only [ih]
      constructor
      · rintro ⟨hvisible, t, he, hfile, hnames, hlast⟩
        exact ⟨⟨t, he, hfile⟩, ⟨hvisible, hnames⟩, hlast⟩
      · rintro ⟨⟨t, he, hfile⟩, ⟨hvisible, hnames⟩, hlast⟩
        exact ⟨hvisible, t, he, hfile, hnames, hlast⟩

/-- The search finds the documents. -/
theorem mem_documentsIn_iff_isDocument {entries : List (String × FileTree)} {names : List String} :
    names ∈ documentsIn entries ↔ IsDocument entries names := by
  cases names with
  | nil =>
    constructor
    · intro h
      exact absurd h (nil_not_mem_documentsIn entries)
    · rintro ⟨⟨⟩, -, -⟩
  | cons name names =>
    rw [mem_documentsIn_iff]
    constructor
    · rintro ⟨hvisible, t, he, hmem⟩
      obtain ⟨hfile, hnames, last, hlast, hname⟩ := mem_documentsAt_iff.mp hmem
      obtain ⟨stem, hstem, rfl⟩ := isDocumentName_iff.mp hname
      exact ⟨.inside he hfile, List.forall_mem_cons.mpr ⟨hvisible, hnames⟩, stem, hstem, hlast⟩
    · rintro ⟨hfile, hvisible, stem, hstem, hlast⟩
      obtain ⟨hname, hnames⟩ := List.forall_mem_cons.mp hvisible
      obtain ⟨t, he, hrest⟩ := FileTree.hasFile_dir_cons_iff.mp hfile
      exact ⟨hname, t, he, mem_documentsAt_iff.mpr ⟨hrest, hnames, _, hlast, isDocumentName_iff.mpr ⟨stem, hstem, rfl⟩⟩⟩

/-- All names on the way to a document are those of entries. -/
theorem IsDocument.isEntryName {entries : List (String × FileTree)} {names : List String} (h : IsDocument entries names)
    (hproper : (FileTree.dir entries).Proper) : ∀ name ∈ names, IsEntryName name :=
  isEntryName_of_mem_documentsIn hproper (mem_documentsIn_iff_isDocument.mpr h)

/-- The order of listing decides in which order documents are found, but not which. -/
theorem documentsAt_perm {t t' : FileTree} (h : t.Relisted t') (name : String) :
    (documentsAt name t).Perm (documentsAt name t') := by
  induction h generalizing name with
  | refl t => exact .refl _
  | order h =>
    rw [documentsAt, documentsAt, documentsIn_eq_flatMap, documentsIn_eq_flatMap]
    exact (h.flatMap_right _).map _
  | @entry x t t' before after h ih =>
    have hentry : (if isHidden x then [] else documentsAt x t).Perm (if isHidden x then [] else documentsAt x t') := by
      split
      · exact .refl _
      · exact ih x
    rw [documentsAt, documentsAt, documentsIn_eq_flatMap, documentsIn_eq_flatMap]
    simp only [List.flatMap_append, List.flatMap_cons]
    exact ((hentry.append_right _).append_left _).map _
  | trans _ _ ih ih' => exact (ih name).trans (ih' name)

theorem documentsIn_perm {entries entries' : List (String × FileTree)}
    (h : (FileTree.dir entries).Relisted (.dir entries')) : (documentsIn entries).Perm (documentsIn entries') := by
  have hperm := (documentsAt_perm h "").map List.tail
  simpa [documentsAt, Function.comp_def] using hperm

theorem sorted_pairwise (paths : List (List String)) : (sorted paths).Pairwise (· ≤ ·) := by
  have h : (sorted paths).Pairwise fun a b => (!decide (b < a)) = true := by
    apply List.pairwise_mergeSort
    · intro a b c hab hbc
      simp only [Bool.not_eq_true', decide_eq_false_iff_not, not_lt] at hab hbc ⊢
      exact hab.trans hbc
    · intro a b
      simp only [Bool.or_eq_true, Bool.not_eq_true', decide_eq_false_iff_not, not_lt]
      exact le_total a b
  exact h.imp fun hab => by simpa using hab

theorem sorted_eq_of_perm {paths paths' : List (List String)} (h : paths.Perm paths') :
    sorted paths = sorted paths' := by
  have hperm : (sorted paths).Perm (sorted paths') := (sorted_perm paths).trans (h.trans (sorted_perm paths').symm)
  exact hperm.eq_of_pairwise (fun _ _ _ _ => le_antisymm) (sorted_pairwise paths) (sorted_pairwise paths')

end Discovery

namespace Path

theorem exists_withSlash (directory : String) : ∃ front, withSlash directory = front ++ ['/'] := by
  unfold withSlash
  split
  next h =>
    obtain ⟨front, hfront⟩ := (endsWith_slash_iff directory).mp h
    exact ⟨front, hfront.symm⟩
  next => exact ⟨directory.toList, rfl⟩

/-- The last segment of an entry's path is its name. -/
theorem segments_join {directory entry : String} (h : IsEntryName entry) {front : List Char}
    (hfront : withSlash directory = front ++ ['/']) :
    segments (join directory entry) = (front.splitOn '/').map String.ofList ++ [entry] := by
  rw [segments, toList_join, hfront, List.append_assoc, List.singleton_append, List.splitOn_append_cons_self,
    List.splitOn_eq_singleton h.no_slash, List.map_append, List.map_singleton, String.ofList_toList]

/-- Below an entry each name adds a segment. -/
theorem segments_foldl_join (directory : String) {entry : String} (h : IsEntryName entry) {names : List String}
    (hnames : ∀ name ∈ names, IsEntryName name) :
    segments (names.foldl join (join directory entry)) = segments (join directory entry) ++ names := by
  induction names generalizing directory entry with
  | nil => simp
  | cons name names ih =>
    obtain ⟨hname, hrest⟩ := List.forall_mem_cons.mp hnames
    have hslash : withSlash (join directory entry) = (join directory entry).toList ++ ['/'] := by
      rw [withSlash_join directory h, toList_join, List.append_assoc]
    rw [List.foldl_cons, ih (join directory entry) hname hrest, segments_join hname hslash, List.append_assoc,
      List.singleton_append, ← segments]

/-- Below one directory, paths are ordered as the names that lead to them. -/
theorem segments_lt_segments {directory : String} {names names' : List String} (hne : names ≠ [])
    (h : ∀ name ∈ names, IsEntryName name) (h' : ∀ name ∈ names', IsEntryName name) (hlt : names < names') :
    segments (names.foldl join directory) < segments (names'.foldl join directory) := by
  obtain ⟨front, hfront⟩ := exists_withSlash directory
  have hsegments : ∀ {names : List String}, names ≠ [] → (∀ name ∈ names, IsEntryName name) →
      segments (names.foldl join directory) = (front.splitOn '/').map String.ofList ++ names := by
    intro names hne hnames
    obtain ⟨name, rest, rfl⟩ := List.exists_cons_of_ne_nil hne
    obtain ⟨hname, hrest⟩ := List.forall_mem_cons.mp hnames
    rw [List.foldl_cons, segments_foldl_join directory hname hrest, segments_join hname hfront, List.append_assoc,
      List.singleton_append]
  have hne' : names' ≠ [] := by
    rintro rfl
    exact List.not_lt_nil names hlt
  rw [hsegments hne h, hsegments hne' h']
  exact List.append_left_lt hlt

end Path

namespace Discovery

/-- The paths are those of the documents below a directory. -/
structure Finds (path : String) (entries : List (String × FileTree)) (paths : List String) : Prop where
  documents : ∀ p, p ∈ paths ↔ ∃ names, IsDocument entries names ∧ p = names.foldl Path.join path
  /-- Each document has a path of its own. -/
  apart : ∀ names names', IsDocument entries names → IsDocument entries names' →
    names.foldl Path.join path = names'.foldl Path.join path → names = names'
  once : paths.Nodup
  /-- Of two paths the one comes first that is smaller in the first segment in which they differ. -/
  ordered : paths.Pairwise fun p q => Path.segments p < Path.segments q

theorem collect_of_dir {files : Files} {path : String} {entries : List (String × FileTree)}
    (h : files path = some (.dir entries)) : collect files path = .ok (pathsIn path entries) := by
  rw [collect, collect?, h]
  rfl

theorem finds_pathsIn (path : String) {entries : List (String × FileTree)} (hproper : (FileTree.dir entries).Proper) :
    Finds path entries (pathsIn path entries) := by
  have hmem : ∀ names, names ∈ sorted (documentsIn entries) ↔ IsDocument entries names := fun names =>
    (sorted_perm _).mem_iff.trans mem_documentsIn_iff_isDocument
  refine ⟨?documents, ?apart, pathsIn_nodup path hproper, ?ordered⟩
  case documents =>
    intro p
    rw [pathsIn, List.mem_map]
    constructor
    · rintro ⟨names, hnames, rfl⟩
      exact ⟨names, (hmem names).mp hnames, rfl⟩
    · rintro ⟨names, hnames, rfl⟩
      exact ⟨names, (hmem names).mpr hnames, rfl⟩
  case apart =>
    intro names names' h h' heq
    exact Path.foldl_join_inj (h.isEntryName hproper) (h'.isEntryName hproper) heq
  case ordered =>
    have hlt : (sorted (documentsIn entries)).Pairwise (· < ·) :=
      ((sorted_pairwise _).and (sorted_documentsIn_nodup hproper)).imp fun ⟨hle, hne⟩ => lt_of_le_of_ne hle hne
    rw [pathsIn, List.pairwise_map]
    apply hlt.imp_of_mem
    intro names names' h h' hlt
    have hdocument := (hmem names).mp h
    refine Path.segments_lt_segments ?_ (hdocument.isEntryName hproper) (((hmem names').mp h').isEntryName hproper) hlt
    rintro rfl
    cases hdocument.file

theorem pathsIn_of_relisted (path : String) {entries entries' : List (String × FileTree)}
    (h : (FileTree.dir entries).Relisted (.dir entries')) : pathsIn path entries' = pathsIn path entries := by
  rw [pathsIn, pathsIn, sorted_eq_of_perm (documentsIn_perm h)]

/-- A path that leads nowhere is an error, and one that leads to a file stands for it whatever its name. One that leads
to a directory stands for the documents below, in the order of their paths and however the directories are listed. -/
theorem collect_documents (files : Files) (path : String) :
    (files path = none → collect files path = .error (.notFound path)) ∧
      (∀ content, files path = some (.file content) → collect files path = .ok [path]) ∧
      ∀ entries, files path = some (.dir entries) → (FileTree.dir entries).Proper →
        ∃ paths, collect files path = .ok paths ∧ Finds path entries paths ∧
          ∀ (files' : Files) (t : FileTree), files' path = some t → (FileTree.dir entries).Relisted t →
            collect files' path = .ok paths := by
  refine ⟨fun h => ?nowhere, fun content h => ?file, fun entries h hproper => ?directory⟩
  case nowhere =>
    rw [collect, collect?, h]
  case file =>
    rw [collect, collect?, h]
  case directory =>
    refine ⟨pathsIn path entries, collect_of_dir h, finds_pathsIn path hproper, fun files' t h' hrelisted => ?_⟩
    obtain ⟨entries', rfl⟩ := hrelisted.isDir ⟨entries, rfl⟩
    rw [collect_of_dir h', pathsIn_of_relisted path hrelisted]

/-- A directory with a directory that bears the name of a document, and what is hidden or has no extension. -/
def shelf (inner : List (String × FileTree)) : List (String × FileTree) :=
  [("b.json", .file .empty), (".json", .file .empty), (".cache", .dir [("d.json", .file .empty)]),
    ("a.json", .dir inner)]

/-- What the directory inside lists. -/
def innerShelf : List (String × FileTree) := [("e.f", .file .empty), ("e.json", .file .empty)]

/-- The directory under a hidden name, and one of its files. -/
def shelves (entries : List (String × FileTree)) : Files
  | ".shelf" => some (.dir entries)
  | ".shelf/.json" => some (.file .empty)
  | _ => none

theorem shelf_proper : (FileTree.dir (shelf innerShelf)).Proper := by
  have hname : ∀ name, name ≠ "" ∧ '/' ∉ name.toList → IsEntryName name := fun _ h => ⟨h.1, h.2⟩
  have hinner : (FileTree.dir innerShelf).Proper := by
    refine .dir (by decide) ?_ ?_
    · simp only [innerShelf, List.forall_mem_cons, List.not_mem_nil, false_implies, implies_true, and_true]
      exact ⟨hname _ (by decide), hname _ (by decide)⟩
    · simp only [innerShelf, List.forall_mem_cons, List.not_mem_nil, false_implies, implies_true, and_true]
      exact ⟨.file _, .file _⟩
  have hcache : (FileTree.dir [("d.json", .file .empty)]).Proper := by
    refine .dir (by decide) ?_ ?_
    · exact List.forall_mem_singleton.mpr (hname _ (by decide))
    · exact List.forall_mem_singleton.mpr (.file _)
  refine .dir (by decide) ?_ ?_
  · simp only [shelf, List.forall_mem_cons, List.not_mem_nil, false_implies, implies_true, and_true]
    exact ⟨hname _ (by decide), hname _ (by decide), hname _ (by decide), hname _ (by decide)⟩
  · simp only [shelf, List.forall_mem_cons, List.not_mem_nil, false_implies, implies_true, and_true]
    exact ⟨.file _, .file _, hcache, hinner⟩

/-- Both directories list their entries the other way round. -/
theorem shelf_relisted : (FileTree.dir (shelf innerShelf)).Relisted (.dir (shelf innerShelf.reverse).reverse) := by
  have hinner : (FileTree.dir innerShelf).Relisted (.dir innerShelf.reverse) := .order (List.reverse_perm _).symm
  have hshelf : (FileTree.dir (shelf innerShelf)).Relisted (.dir (shelf innerShelf.reverse)) :=
    .entry [("b.json", .file .empty), (".json", .file .empty), (".cache", .dir [("d.json", .file .empty)])] [] hinner
  exact hshelf.trans (.order (List.reverse_perm _).symm)

theorem collect_documents_shelf :
    collect (shelves (shelf innerShelf)) "shelf" = .error (.notFound "shelf") ∧
      collect (shelves (shelf innerShelf)) ".shelf/.json" = .ok [".shelf/.json"] ∧
      collect (shelves (shelf innerShelf)) ".shelf" = .ok [".shelf/a.json/e.json", ".shelf/b.json"] ∧
      Finds ".shelf" (shelf innerShelf) [".shelf/a.json/e.json", ".shelf/b.json"] ∧
      collect (shelves (shelf innerShelf.reverse).reverse) ".shelf" =
        .ok [".shelf/a.json/e.json", ".shelf/b.json"] := by
  have hfound : documentsIn (shelf innerShelf) = [["b.json"], ["a.json", "e.json"]] := by decide +kernel
  have hsorted : sorted [["b.json"], ["a.json", "e.json"]] = [["a.json", "e.json"], ["b.json"]] :=
    (sorted_eq_of_perm (.swap _ _ _)).trans (List.mergeSort_of_pairwise (by decide))
  have hpaths : pathsIn ".shelf" (shelf innerShelf) = [".shelf/a.json/e.json", ".shelf/b.json"] := by
    rw [pathsIn, hfound, hsorted]
    decide +kernel
  have hshelf : collect (shelves (shelf innerShelf)) ".shelf" = .ok (pathsIn ".shelf" (shelf innerShelf)) :=
    collect_of_dir rfl
  rw [hpaths] at hshelf
  obtain ⟨paths, hcollect, hfinds, hrelisted⟩ :=
    (collect_documents (shelves (shelf innerShelf)) ".shelf").2.2 _ rfl shelf_proper
  obtain rfl : paths = [".shelf/a.json/e.json", ".shelf/b.json"] := Except.ok.inj (hcollect.symm.trans hshelf)
  exact ⟨(collect_documents _ "shelf").1 rfl, (collect_documents _ ".shelf/.json").2.1 _ rfl, hcollect, hfinds,
    hrelisted _ _ rfl shelf_relisted⟩

end Discovery
end NameResolution
