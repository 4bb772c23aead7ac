import NameResolution.Proofs.Scope.Enclosing

/-!
# Scope trees with one declaration under another name

One declaration goes by another name in the log of all entries. The scopes stay as they are. Under any name but the
new one, a look-up finds what it found but for the declaration; under the new one, it finds the declaration and
nothing else, if the name is a fresh one.
-/
namespace NameResolution

def Entry.rename (d : NodeId) (name : String) (e : Entry) : Entry :=
  { e with name := if e.declaration = d then name else e.name }

theorem Entry.rename_of_ne {d : NodeId} {e : Entry} (h : e.declaration ≠ d) (name : String) :
    e.rename d name = e := by
  rw [rename, if_neg h]

namespace ScopeTree
variable {d x : NodeId} {name n : String} {S : ScopeTree} {s : ScopeId}

def rename (d : NodeId) (name : String) (S : ScopeTree) : ScopeTree :=
  { S with entries := S.entries.map (Entry.rename d name) }

@[simp] theorem scopes_rename (d : NodeId) (name : String) (S : ScopeTree) :
    (S.rename d name).scopes = S.scopes := rfl

theorem mem_entries_rename {e : Entry} :
    e ∈ (S.rename d name).entries ↔ ∃ e' ∈ S.entries, e'.rename d name = e := by
  rw [rename, Array.mem_map]

theorem map_declaration_rename (d : NodeId) (name : String) (S : ScopeTree) :
    (S.rename d name).entries.toList.map Entry.declaration = S.entries.toList.map Entry.declaration := by
  simp [rename, Entry.rename, Function.comp_def]

/-- The scopes around a scope depend on the scopes only. -/
theorem ancestors_congr {S' : ScopeTree} (h : S'.scopes = S.scopes) (s : ScopeId) :
    S'.ancestors s = S.ancestors s := by
  have hclimb : ∀ limit start, S'.climb limit start = S.climb limit start := by
    intro limit
    induction limit with
    | zero => exact fun _ => rfl
    | succ limit ih =>
      intro start
      cases start with
      | none => rfl
      | some s =>
        rw [climb, climb, get?_congr h]
        cases S.get? s with
        | none => rfl
        | some sc => simp only [ih]
  rw [ancestors, ancestors, hclimb, size, size, h]

theorem innermostRecord?_congr {S' : ScopeTree} (h : S'.scopes = S.scopes) (s : ScopeId) :
    S'.innermostRecord? s = S.innermostRecord? s := by
  rw [innermostRecord?, innermostRecord?, ancestors_congr h]

/-- Under an old name everything is found but the declaration. -/
theorem lookup_rename_of_ne (hn : n ≠ name) (d : NodeId) (S : ScopeTree) (s : ScopeId) :
    (S.rename d name).lookup s n = (S.lookup s n).filter (· ≠ d) := by
  simp only [lookup, rename, Array.toList_map]
  generalize S.entries.toList = es
  induction es with
  | nil => rfl
  | cons e es ih =>
    simp only [List.map_cons, List.filter_cons]
    by_cases he : e.declaration = d
    · have hname : ((e.rename d name).name == n) = false := by
        rw [Entry.rename, if_pos he]
        exact beq_false_of_ne (Ne.symm hn)
      rw [hname, Bool.and_false, if_neg Bool.false_ne_true, ih]
      split
      · simp [he]
      · rfl
    · rw [Entry.rename_of_ne he]
      split
      · simp [he, ih]
      · exact ih

/-- Where the declaration is not found, everything is. -/
theorem lookup_rename_of_not_mem (hn : n ≠ name) (hd : d ∉ S.lookup s n) :
    (S.rename d name).lookup s n = S.lookup s n := by
  rw [lookup_rename_of_ne hn]
  refine List.filter_eq_self.mpr fun x hx => decide_eq_true ?_
  rintro rfl
  exact hd hx

/-- Under a fresh name only the declaration is found, where it is declared. -/
theorem mem_lookup_rename_self (hfresh : ∀ e ∈ S.entries, e.name ≠ name) :
    x ∈ (S.rename d name).lookup s name ↔ x = d ∧ ∃ n, d ∈ S.lookup s n := by
  rw [mem_lookup_iff, mem_entries_rename]
  constructor
  · rintro ⟨e, he, heq⟩
    have hd : e.declaration = d := by
      by_contra hne
      rw [Entry.rename_of_ne hne] at heq
      exact hfresh e he (by rw [heq])
    rw [Entry.rename, Entry.mk.injEq] at heq
    obtain ⟨rfl, -, rfl⟩ := heq
    exact ⟨hd, e.name, mem_lookup_iff.mpr (hd ▸ he)⟩
  · rintro ⟨rfl, n, hn⟩
    exact ⟨_, mem_lookup_iff.mp hn, by rw [Entry.rename, if_pos rfl]⟩

/-- Declaring a node under the name that it goes by. -/
theorem declare_rename (S : ScopeTree) (s : ScopeId) (n : String) (x : NodeId) :
    (S.rename d name).declare s (if x = d then name else n) x = (S.declare s n x).rename d name := by
  have hsize : (S.rename d name).size = S.size := rfl
  rw [declare, declare, hsize]
  split
  · simp only [rename, Array.map_push, Entry.rename]
  · rfl

theorem declare_rename_of_ne (hx : x ≠ d) (S : ScopeTree) (s : ScopeId) (n : String) :
    (S.rename d name).declare s n x = (S.declare s n x).rename d name := by
  rw [← declare_rename, if_neg hx]

end ScopeTree
end NameResolution
