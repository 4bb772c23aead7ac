import Mathlib.Data.List.Find
import NameResolution.Proofs.Tree.Frame

/-!
# Scopes around nodes

The scopes that enclose a node are those of its ancestors. What the operations on scope trees do to the
scope of a node is said here once; the rest of the proofs never opens `ScopeTree.scopeOf?` again.
-/
namespace NameResolution

namespace ScopeTree
variable {t t' : ScopeTree} {s : ScopeId} {sc : Scope} {x : NodeId}

theorem lt_size_of_get? (h : t.get? s = some sc) : s.index < t.size := by
  simp only [get?, Array.getElem?_eq_some_iff] at h
  exact h.1

theorem exists_of_lt_size (h : s.index < t.size) : ∃ sc, t.get? s = some sc :=
  ⟨t.scopes[s.index], Array.getElem?_eq_getElem h⟩

/-- The scope of a node depends on the scopes only. -/
theorem scopeOf?_congr (h : t'.scopes = t.scopes) (x : NodeId) : t'.scopeOf? x = t.scopeOf? x := by
  simp only [scopeOf?, size, h]

theorem get?_congr (h : t'.scopes = t.scopes) (s : ScopeId) : t'.get? s = t.get? s := by
  simp only [get?, h]

theorem get?_of_scopeOf? (h : t.scopeOf? x = some s) : ∃ sc, t.get? s = some sc ∧ sc.owner = x := by
  obtain ⟨i, hi, rfl⟩ := Option.map_eq_some_iff.mp h
  have hany := List.find?_some hi
  rw [Option.any_eq_true] at hany
  obtain ⟨sc, hsc, howner⟩ := hany
  exact ⟨sc, hsc, by simpa using howner⟩

theorem lt_size_of_scopeOf? (h : t.scopeOf? x = some s) : s.index < t.size := by
  obtain ⟨sc, hsc, -⟩ := get?_of_scopeOf? h
  exact lt_size_of_get? hsc

/-- No two nodes open the same scope. -/
theorem scopeOf?_inj {y : NodeId} (hx : t.scopeOf? x = some s) (hy : t.scopeOf? y = some s) : x = y := by
  obtain ⟨sc, hsc, rfl⟩ := get?_of_scopeOf? hx
  obtain ⟨sc', hsc', rfl⟩ := get?_of_scopeOf? hy
  rw [hsc] at hsc'
  cases hsc'
  rfl

@[simp] theorem scopeOf?_empty (x : NodeId) : ({} : ScopeTree).scopeOf? x = none := rfl

@[simp] theorem size_push (t : ScopeTree) (kind : ScopeKind) (owner : NodeId) (parent : Option ScopeId) :
    (t.push kind owner parent).2.size = t.size + 1 := by
  simp [push, size]

theorem get?_push (t : ScopeTree) (kind : ScopeKind) (owner : NodeId) (parent : Option ScopeId)
    (s : ScopeId) :
    (t.push kind owner parent).2.get? s =
      if s = ⟨t.size⟩ then some ⟨kind, owner, parent⟩ else t.get? s := by
  obtain ⟨i⟩ := s
  simp only [push, get?, Array.getElem?_push, size, ScopeId.mk.injEq]

theorem cases_of_get?_push {t : ScopeTree} {kind : ScopeKind} {owner : NodeId} {parent : Option ScopeId}
    {s : ScopeId} {sc : Scope} (h : (t.push kind owner parent).2.get? s = some sc) :
    (s = ⟨t.size⟩ ∧ sc = ⟨kind, owner, parent⟩) ∨ t.get? s = some sc := by
  rw [get?_push] at h
  by_cases hs : s = ⟨t.size⟩
  · rw [if_pos hs] at h
    exact .inl ⟨hs, (Option.some.inj h).symm⟩
  · rw [if_neg hs] at h
    exact .inr h

theorem scopeOf?_push (t : ScopeTree) (kind : ScopeKind) (owner : NodeId) (parent : Option ScopeId)
    (x : NodeId) :
    (t.push kind owner parent).2.scopeOf? x =
      if owner = x then some ⟨t.size⟩ else t.scopeOf? x := by
  have hlast : (t.push kind owner parent).2.scopes[t.size]? = some ⟨kind, owner, parent⟩ := by
    simp [push, size]
  rw [scopeOf?, size_push, List.range_succ, List.reverse_append, List.reverse_singleton,
    List.singleton_append, List.find?_cons, hlast]
  by_cases hx : owner = x
  · simp [hx]
  · have hne : (owner == x) = false := beq_false_of_ne hx
    simp only [Option.any_some, hne, if_neg hx, scopeOf?]
    congr 1
    apply List.find?_congr
    intro i hi
    have hlt : i < t.size := by simpa using hi
    have hold : (t.push kind owner parent).2.scopes[i]? = t.scopes[i]? := by
      rw [size] at hlt
      simp [push, Array.getElem?_push, Nat.ne_of_lt hlt]
    rw [hold]

@[simp] theorem scopeOf?_nameRecord (t : ScopeTree) (q : String) (r x : NodeId) :
    (t.nameRecord q r).scopeOf? x = t.scopeOf? x := rfl

@[simp] theorem scopes_declare (t : ScopeTree) (s : ScopeId) (name : String) (d : NodeId) :
    (t.declare s name d).scopes = t.scopes := by
  unfold declare
  split <;> rfl

/-- Declares a list of entries, whose scopes exist. -/
def declareAll (t : ScopeTree) (es : List Entry) : ScopeTree :=
  { t with entries := t.entries ++ es.toArray }

theorem declare_eq_declareAll (t : ScopeTree) {s : ScopeId} (h : s.index < t.size) (name : String)
    (d : NodeId) : t.declare s name d = t.declareAll [⟨s, name, d⟩] := by
  rw [declare, if_pos h, declareAll]
  simp

@[simp] theorem declareAll_nil (t : ScopeTree) : t.declareAll [] = t := by
  simp [declareAll]

@[simp] theorem declareAll_declareAll (t : ScopeTree) (es es' : List Entry) :
    (t.declareAll es).declareAll es' = t.declareAll (es ++ es') := by
  simp [declareAll]

@[simp] theorem scopeOf?_declareAll (t : ScopeTree) (es : List Entry) (x : NodeId) :
    (t.declareAll es).scopeOf? x = t.scopeOf? x := rfl

theorem mem_entries_declareAll {es : List Entry} {e : Entry} :
    e ∈ (t.declareAll es).entries ↔ e ∈ t.entries ∨ e ∈ es := by
  simp [declareAll]

theorem mem_lookup_iff {name : String} {d : NodeId} :
    d ∈ t.lookup s name ↔ (⟨s, name, d⟩ : Entry) ∈ t.entries := by
  simp only [lookup, List.mem_map, List.mem_filter, Bool.and_eq_true, beq_iff_eq, Array.mem_toList_iff]
  constructor
  · rintro ⟨e, ⟨he, rfl, rfl⟩, rfl⟩
    exact he
  · intro h
    exact ⟨_, ⟨h, rfl, rfl⟩, rfl⟩

end ScopeTree

namespace Tree

/-- The scopes that the nodes above a node open, the innermost first. -/
def enclosingScopes (t : Tree) (scopes : ScopeTree) (id : NodeId) : List ScopeId :=
  (t.ancestors id).filterMap scopes.scopeOf?

/-- The innermost scope around a node. -/
def enclosingScope? (t : Tree) (scopes : ScopeTree) (id : NodeId) : Option ScopeId :=
  (t.enclosingScopes scopes id).head?

section
variable {t t' : Tree} {S S' : ScopeTree} {id p c : NodeId} {n : Node}

theorem Extends.enclosingScopes_eq (h : t.Extends t') (ht : t.WellFormed) (hn : t.get? id = some n)
    (S : ScopeTree) : t'.enclosingScopes S id = t.enclosingScopes S id := by
  rw [enclosingScopes, enclosingScopes, h.ancestors_eq ht hn]

theorem Extends.enclosingScope?_eq (h : t.Extends t') (ht : t.WellFormed) (hn : t.get? id = some n)
    (S : ScopeTree) : t'.enclosingScope? S id = t.enclosingScope? S id :=
  congrArg List.head? (h.enclosingScopes_eq ht hn S)

theorem enclosingScopes_congr (h : ∀ a ∈ t.ancestors id, S'.scopeOf? a = S.scopeOf? a) :
    t.enclosingScopes S' id = t.enclosingScopes S id :=
  List.filterMap_congr h

/-- The innermost scope around a node depends on the scopes only. -/
theorem enclosingScope?_congr (h : S'.scopes = S.scopes) : t.enclosingScope? S' id = t.enclosingScope? S id :=
  congrArg List.head? (enclosingScopes_congr fun a _ => ScopeTree.scopeOf?_congr h a)

theorem WellFormed.enclosingScopes_of_child (h : t.WellFormed) (hn : t.get? p = some n)
    (hc : c ∈ n.children) (S : ScopeTree) :
    t.enclosingScopes S c = (S.scopeOf? p).toList ++ t.enclosingScopes S p := by
  rw [enclosingScopes, h.ancestors_of_child hn hc, List.filterMap_cons]
  cases S.scopeOf? p <;> rfl

theorem WellFormed.enclosingScope?_of_child (h : t.WellFormed) (hn : t.get? p = some n)
    (hc : c ∈ n.children) (S : ScopeTree) :
    t.enclosingScope? S c = (S.scopeOf? p).or (t.enclosingScope? S p) := by
  rw [enclosingScope?, h.enclosingScopes_of_child hn hc]
  cases S.scopeOf? p <;> rfl

/-- The scopes around a node are the scopes of nodes above it. -/
theorem mem_enclosingScopes {s : ScopeId} :
    s ∈ t.enclosingScopes S id ↔ ∃ a ∈ t.ancestors id, S.scopeOf? a = some s :=
  List.mem_filterMap

theorem enclosingScope?_push {x : NodeId} (h : id ∉ t.ancestors x) (kind : ScopeKind)
    (parent : Option ScopeId) : t.enclosingScope? (S.push kind id parent).2 x = t.enclosingScope? S x := by
  rw [enclosingScope?, enclosingScopes_congr fun a ha => ?_]
  · rfl
  · rw [ScopeTree.scopeOf?_push, if_neg]
    rintro rfl
    exact h ha

theorem lt_size_of_enclosingScope? {s : ScopeId} (h : t.enclosingScope? S id = some s) : s.index < S.size := by
  obtain ⟨a, -, ha⟩ := mem_enclosingScopes.mp (List.mem_of_mem_head? h)
  exact ScopeTree.lt_size_of_scopeOf? ha

end
end Tree
end NameResolution
