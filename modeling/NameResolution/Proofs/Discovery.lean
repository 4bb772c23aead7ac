import NameResolution.Files.Discovery
import Mathlib.Data.List.Nodup

/-!
# The documents below a directory

A directory lists no name twice, and none of its names holds a slash. Each document below it then has a path of its
own: what is put behind the path of the directory can be taken apart again at the slashes.
-/
namespace NameResolution

/-- A name that stands for one entry of a directory. -/
structure IsEntryName (name : String) : Prop where
  nonempty : name ≠ ""
  no_slash : '/' ∉ name.toList

/-- In all directories the entries have names, and different ones. -/
inductive FileTree.Proper : FileTree → Prop
  | file (content : ByteArray) : Proper (.file content)
  | dir {entries : List (String × FileTree)} (distinct : (entries.map Prod.fst).Nodup)
      (named : ∀ e ∈ entries, IsEntryName e.1) (below : ∀ e ∈ entries, Proper e.2) : Proper (.dir entries)

namespace Path

/-- The characters of a path, and a slash unless it ends in one. -/
def withSlash (path : String) : List Char :=
  if path.endsWith "/" then path.toList else path.toList ++ ['/']

theorem endsWith_slash_iff (path : String) : path.endsWith "/" = true ↔ ['/'] <:+ path.toList := by
  rw [String.endsWith_eq_endsWith_toSlice, String.Slice.endsWith_string_iff]
  simp

theorem toList_join (directory entry : String) : (join directory entry).toList = withSlash directory ++ entry.toList := by
  unfold join withSlash
  split <;> simp

/-- A path to an entry does not end in a slash. -/
theorem withSlash_join (directory : String) {entry : String} (h : IsEntryName entry) :
    withSlash (join directory entry) = withSlash directory ++ (entry.toList ++ ['/']) := by
  have hend : ¬ (join directory entry).endsWith "/" = true := by
    rw [endsWith_slash_iff, toList_join]
    intro hsuffix
    have hne : entry.toList ≠ [] := by simpa using h.nonempty
    have hlast : entry.toList.getLast hne = '/' := by
      obtain ⟨front, hfront⟩ := hsuffix
      have hlasts := congrArg List.getLast? hfront
      rw [List.getLast?_concat, List.getLast?_append_of_ne_nil _ hne, List.getLast?_eq_some_getLast hne] at hlasts
      exact (Option.some.inj hlasts).symm
    exact h.no_slash (hlast ▸ List.getLast_mem hne)
  rw [withSlash, if_neg hend, toList_join, List.append_assoc]

theorem withSlash_foldl_join (directory : String) (s : List String) (h : ∀ x ∈ s, IsEntryName x) :
    withSlash (s.foldl join directory) = withSlash directory ++ s.flatMap (·.toList ++ ['/']) := by
  induction s generalizing directory with
  | nil => simp
  | cons x s ih =>
    rw [List.foldl_cons, ih _ (fun y hy => h y (List.mem_cons_of_mem x hy)),
      withSlash_join directory (h x List.mem_cons_self), List.flatMap_cons, List.append_assoc]

/-- What stands before the first slash, and what follows it, can be read off. -/
theorem append_slash_inj {a b r s : List Char} (ha : '/' ∉ a) (hb : '/' ∉ b) (h : a ++ '/' :: r = b ++ '/' :: s) :
    a = b ∧ r = s := by
  have htake : ∀ {c t : List Char}, '/' ∉ c → (c ++ '/' :: t).takeWhile (· != '/') = c := by
    intro c t hc
    rw [List.takeWhile_append_of_pos fun x hx => by
      rw [bne_iff_ne]
      rintro rfl
      exact hc hx]
    simp
  have hab : a = b := by rw [← htake ha, h, htake hb]
  subst hab
  exact ⟨rfl, (List.cons.inj (List.append_cancel_left h)).2⟩

theorem flatMap_slash_inj {s s' : List String} (hs : ∀ x ∈ s, IsEntryName x) (hs' : ∀ x ∈ s', IsEntryName x)
    (h : s.flatMap (·.toList ++ ['/']) = s'.flatMap (·.toList ++ ['/'])) : s = s' := by
  induction s generalizing s' with
  | nil =>
    cases s' with
    | nil => rfl
    | cons y s' => simp at h
  | cons x s ih =>
    cases s' with
    | nil => simp at h
    | cons y s' =>
      simp only [List.flatMap_cons, List.append_assoc, List.singleton_append] at h
      obtain ⟨hxy, hrest⟩ := append_slash_inj (hs x List.mem_cons_self).no_slash (hs' y List.mem_cons_self).no_slash h
      rw [String.toList_injective hxy, ih (fun z hz => hs z (List.mem_cons_of_mem x hz))
        (fun z hz => hs' z (List.mem_cons_of_mem y hz)) hrest]

/-- Different segments lead to different paths. -/
theorem foldl_join_inj {directory : String} {s s' : List String} (hs : ∀ x ∈ s, IsEntryName x)
    (hs' : ∀ x ∈ s', IsEntryName x) (h : s.foldl join directory = s'.foldl join directory) : s = s' := by
  have hslash := congrArg withSlash h
  rw [withSlash_foldl_join directory s hs, withSlash_foldl_join directory s' hs'] at hslash
  exact flatMap_slash_inj hs hs' (List.append_cancel_left hslash)

end Path

namespace Discovery

theorem documentsIn_eq_flatMap (entries : List (String × FileTree)) :
    documentsIn entries = entries.flatMap fun e => if isHidden e.1 then [] else documentsAt e.1 e.2 := by
  induction entries with
  | nil => simp [documentsIn]
  | cons e entries ih => rw [documentsIn, ih, List.flatMap_cons]

theorem mem_documentsAt_of_listed {e : String × FileTree} {s : List String}
    (h : s ∈ if isHidden e.1 then [] else documentsAt e.1 e.2) : s ∈ documentsAt e.1 e.2 := by
  split at h
  · cases h
  · exact h

theorem mem_documentsIn {entries : List (String × FileTree)} {s : List String} (h : s ∈ documentsIn entries) :
    ∃ e ∈ entries, s ∈ documentsAt e.1 e.2 := by
  rw [documentsIn_eq_flatMap] at h
  obtain ⟨e, he, hs⟩ := List.mem_flatMap.mp h
  exact ⟨e, he, mem_documentsAt_of_listed hs⟩

/-- The way to a document at or below an entry begins with the entry. -/
theorem head_of_mem_documentsAt {name : String} {t : FileTree} {s : List String} (h : s ∈ documentsAt name t) :
    s.head? = some name := by
  cases t with
  | file content =>
    rw [documentsAt] at h
    split at h
    · rw [List.mem_singleton.mp h]
      rfl
    · cases h
  | dir entries =>
    rw [documentsAt] at h
    obtain ⟨rest, -, rfl⟩ := List.mem_map.mp h
    rfl

theorem names_of_mem_documentsAt {t : FileTree} (ht : t.Proper) : ∀ {name : String}, IsEntryName name →
    ∀ {s : List String}, s ∈ documentsAt name t → ∀ x ∈ s, IsEntryName x := by
  induction ht with
  | file content =>
    intro name hname s hs x hx
    rw [documentsAt] at hs
    split at hs
    · rw [List.mem_singleton.mp hs, List.mem_singleton] at hx
      rwa [hx]
    · cases hs
  | dir _ named _ ih =>
    intro name hname s hs x hx
    rw [documentsAt] at hs
    obtain ⟨rest, hrest, rfl⟩ := List.mem_map.mp hs
    obtain ⟨e, he, hmem⟩ := mem_documentsIn hrest
    rcases List.mem_cons.mp hx with rfl | hx
    · exact hname
    · exact ih e he (named e he) hmem x hx

/-- The ways to the documents of entries with different names are different, if those of each entry are. -/
theorem documentsIn_nodup {entries : List (String × FileTree)} (distinct : (entries.map Prod.fst).Nodup)
    (below : ∀ e ∈ entries, (documentsAt e.1 e.2).Nodup) : (documentsIn entries).Nodup := by
  rw [documentsIn_eq_flatMap, List.nodup_flatMap]
  constructor
  · intro e he
    split
    · exact List.nodup_nil
    · exact below e he
  · apply (List.pairwise_map.mp distinct).imp
    intro e e' hne s hs hs'
    have hhead := head_of_mem_documentsAt (mem_documentsAt_of_listed hs)
    rw [head_of_mem_documentsAt (mem_documentsAt_of_listed hs')] at hhead
    exact hne (Option.some.inj hhead).symm

theorem documentsAt_nodup {t : FileTree} (ht : t.Proper) : ∀ name, (documentsAt name t).Nodup := by
  induction ht with
  | file content =>
    intro name
    rw [documentsAt]
    split
    · exact List.nodup_singleton _
    · exact List.nodup_nil
  | dir distinct _ _ ih =>
    intro name
    rw [documentsAt]
    exact (documentsIn_nodup distinct fun e he => ih e he e.1).map (List.cons_injective)

theorem isEntryName_of_mem_documentsIn {entries : List (String × FileTree)} (hproper : (FileTree.dir entries).Proper)
    {s : List String} (hs : s ∈ documentsIn entries) : ∀ x ∈ s, IsEntryName x := by
  cases hproper with
  | dir _ named below =>
    obtain ⟨e, he, hmem⟩ := mem_documentsIn hs
    exact names_of_mem_documentsAt (below e he) (named e he) hmem

theorem sorted_perm (paths : List (List String)) : (sorted paths).Perm paths := List.mergeSort_perm _ _

theorem sorted_documentsIn_nodup {entries : List (String × FileTree)} (hproper : (FileTree.dir entries).Proper) :
    (sorted (documentsIn entries)).Nodup := by
  cases hproper with
  | dir distinct _ below =>
    exact (sorted_perm _).nodup_iff.mpr (documentsIn_nodup distinct fun e he => documentsAt_nodup (below e he) e.1)

def pathsIn (path : String) (entries : List (String × FileTree)) : List String :=
  (sorted (documentsIn entries)).map fun names => names.foldl Path.join path

theorem pathsIn_nodup (path : String) {entries : List (String × FileTree)} (hproper : (FileTree.dir entries).Proper) :
    (pathsIn path entries).Nodup := by
  have hnames : ∀ s ∈ sorted (documentsIn entries), ∀ x ∈ s, IsEntryName x := fun s hs =>
    isEntryName_of_mem_documentsIn hproper ((sorted_perm _).mem_iff.mp hs)
  apply (sorted_documentsIn_nodup hproper).map_on
  intro s hs s' hs' heq
  exact Path.foldl_join_inj (hnames s hs) (hnames s' hs') heq

/-- The collected documents have paths of their own. -/
theorem collect_nodup {files : Files} {path : String} {paths : List String} (hcollect : collect? files path = some paths)
    (hproper : ∀ t, files path = some t → t.Proper) : paths.Nodup := by
  unfold collect? at hcollect
  split at hcollect
  next => cases hcollect
  next =>
    cases hcollect
    exact List.nodup_singleton path
  next entries hdir =>
    cases hcollect
    exact pathsIn_nodup path (hproper _ hdir)

end Discovery
end NameResolution
