import NameResolution.Proofs.Registration.Invariant

/-!
# Chains of scopes and chains of parents

A scope tree finds the scopes around a scope by their parent links, and the tree finds them by the nodes above
a node. In a registered tree both give the same list, so that whatever is looked up outward from a scope
is looked up among the ancestors of the node.
-/
namespace NameResolution.Registration
open NameResolution.Tree ScopeTree

namespace Nested

variable {t : Tree} {S : ScopeTree} {x : NodeId} {s : ScopeId} {sc : Scope}

/-- Past the innermost scope around a node, the scopes are those around its owner. -/
theorem enclosingScopes_eq_cons (ht : t.WellFormed) (hx : t.enclosingScope? S x = some s)
    (hs : S.get? s = some sc) :
    t.enclosingScopes S x = s :: t.enclosingScopes S sc.owner := by
  obtain ⟨rest, hrest⟩ := List.head?_eq_some_iff.mp hx
  obtain ⟨nearer, a, further, habove, -, ha, hfurther⟩ := List.filterMap_eq_cons_iff.mp hrest
  obtain ⟨sc', hsc', howner⟩ := get?_of_scopeOf? ha
  rw [hs] at hsc'
  cases hsc'
  rw [hrest, ← hfurther, howner, enclosingScopes]
  cases hn : t.get? x with
  | none => simp [ancestors_of_get?_none hn] at habove
  | some n =>
    have hl := ht.lineage_ancestors hn
    rw [habove] at hl
    rw [hl.of_append.ancestors_eq]

theorem climb_eq (h : Nested t S) (ht : t.WellFormed) {limit : Nat}
    (hs : S.get? s = some sc) (hlimit : s.index < limit) :
    (S.climb limit (some s)).map Prod.fst = s :: t.enclosingScopes S sc.owner := by
  induction limit generalizing s sc with
  | zero => omega
  | succ limit ih =>
    rw [ScopeTree.climb, hs, List.map_cons]
    congr 1
    have hparent := h.parent hs
    cases hp : sc.parent with
    | none =>
      rw [hp, enclosingScope?, eq_comm, List.head?_eq_none_iff] at hparent
      rw [hparent]
      cases limit <;> rfl
    | some q =>
      have hlt := h.earlier hs hp
      obtain ⟨qc, hqc⟩ := exists_of_lt_size (Nat.lt_trans hlt (lt_size_of_get? hs))
      rw [ih hqc (by omega), ← enclosingScopes_eq_cons ht (hparent.symm.trans hp) hqc]

/-- Outward from the innermost scope around a node stand the scopes of its ancestors. -/
theorem map_fst_ancestors (h : Nested t S) (ht : t.WellFormed)
    (hx : t.enclosingScope? S x = some s) :
    (S.ancestors s).map Prod.fst = t.enclosingScopes S x := by
  obtain ⟨sc, hsc⟩ := exists_of_lt_size (lt_size_of_enclosingScope? hx)
  rw [ScopeTree.ancestors, h.climb_eq ht hsc (lt_size_of_get? hsc), enclosingScopes_eq_cons ht hx hsc]

theorem get?_of_mem_climb {limit : Nat} {start : Option ScopeId} {q : ScopeId} {qc : Scope}
    (hq : (q, qc) ∈ S.climb limit start) : S.get? q = some qc := by
  induction limit generalizing start with
  | zero => cases hq
  | succ limit ih =>
    cases start with
    | none => cases hq
    | some s =>
      rw [ScopeTree.climb] at hq
      cases hs : S.get? s with
      | none => simp [hs] at hq
      | some sc =>
        rw [hs] at hq
        rcases List.mem_cons.mp hq with hq | hq
        · cases hq
          exact hs
        · exact ih hq

/-- Scopes that are listed with their ids can be read off the ids. -/
theorem eq_filterMap_get? {l : List (ScopeId × Scope)} (hl : ∀ p ∈ l, S.get? p.1 = some p.2) :
    l = (l.map Prod.fst).filterMap fun q => (S.get? q).map (q, ·) := by
  rw [List.filterMap_map]
  symm
  rw [List.filterMap_congr fun p hp => ?_, List.filterMap_some]
  rw [Function.comp_apply, hl p hp]
  rfl

/-- The scope of a node says whether the node is a record. -/
theorem kind_eq_record_iff (h : Nested t S) {q : ScopeId} {qc : Scope} (hq : S.get? q = some qc) :
    (qc.kind == .record) = (t.kind? qc.owner == some .recordDecl) := by
  obtain ⟨n, hn, hopens⟩ := h.owner hq
  rw [Bool.eq_iff_iff, beq_iff_eq, beq_iff_eq, kind?, hn, Option.map_some, Option.some.injEq,
    Node.kind, ← Registered.opens?_eq_record_iff, hopens, Option.some.injEq]

/-- The record that is innermost around a scope is the nearest record above the node that has a scope. -/
theorem innermostRecord?_eq (h : Nested t S) (ht : t.WellFormed)
    (hx : t.enclosingScope? S x = some s) :
    S.innermostRecord? s =
      (t.ancestors x).find? fun a => t.kind? a == some .recordDecl && (S.scopeOf? a).isSome := by
  have hpair : S.ancestors s = (t.enclosingScopes S x).filterMap fun q => (S.get? q).map (q, ·) := by
    rw [← h.map_fst_ancestors ht hx]
    exact eq_filterMap_get? fun p hp => get?_of_mem_climb hp
  rw [innermostRecord?, hpair, enclosingScopes]
  generalize t.ancestors x = above
  induction above with
  | nil => rfl
  | cons a above ih =>
    rw [List.filterMap_cons, List.find?_cons]
    cases ha : S.scopeOf? a with
    | none => simpa using ih
    | some q =>
      obtain ⟨qc, hqc, rfl⟩ := get?_of_scopeOf? ha
      rw [List.filterMap_cons, hqc, Option.map_some, List.find?_cons]
      simp only [h.kind_eq_record_iff hqc, Option.isSome_some, Bool.and_true]
      cases t.kind? qc.owner == some .recordDecl with
      | true => rfl
      | false => exact ih

/-- If the records around a record have scopes, they own the scopes of records strictly around its scope. -/
theorem owners_eq_enclosingRecords (h : Nested t S) (ht : t.WellFormed) (hs : S.get? s = some sc)
    (habove : ∀ a ∈ t.enclosingRecords sc.owner, (S.scopeOf? a).isSome = true) :
    ((S.ancestors s).tail.filter (·.2.kind == .record)).map (·.2.owner) = t.enclosingRecords sc.owner := by
  have hpair : (S.ancestors s).tail =
      (t.enclosingScopes S sc.owner).filterMap fun q => (S.get? q).map (q, ·) := by
    have hclimb : (S.ancestors s).map Prod.fst = s :: t.enclosingScopes S sc.owner :=
      h.climb_eq ht hs (lt_size_of_get? hs)
    have htail := congrArg List.tail hclimb
    rw [← List.map_tail, List.tail_cons] at htail
    rw [← htail]
    exact eq_filterMap_get? fun p hp => get?_of_mem_climb (List.mem_of_mem_tail hp)
  rw [hpair, enclosingScopes]
  rw [enclosingRecords] at habove ⊢
  generalize t.ancestors sc.owner = above at habove
  induction above with
  | nil => rfl
  | cons a above ih =>
    have hrest := ih fun b hb => habove b (by
      rw [List.filter_cons]
      split
      · exact List.mem_cons_of_mem _ hb
      · exact hb)
    rw [List.filterMap_cons]
    cases ha : S.scopeOf? a with
    | none =>
      have hno : (t.kind? a == some .recordDecl) = false := by
        by_contra hyes
        have hsome := habove a (List.mem_filter.mpr ⟨List.mem_cons_self .., by simpa using hyes⟩)
        rw [ha] at hsome
        cases hsome
      rw [List.filter_cons, hno]
      exact hrest
    | some q =>
      obtain ⟨qc, hqc, rfl⟩ := get?_of_scopeOf? ha
      rw [List.filterMap_cons, hqc, Option.map_some, List.filter_cons, List.filter_cons, h.kind_eq_record_iff hqc]
      cases t.kind? qc.owner == some .recordDecl with
      | true => exact congrArg (qc.owner :: ·) hrest
      | false => exact hrest

end Nested
end NameResolution.Registration
