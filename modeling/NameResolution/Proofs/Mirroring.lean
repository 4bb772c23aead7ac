import NameResolution.Proofs.Evolution
import NameResolution.Proofs.LexicalBinding
import NameResolution.Proofs.Malformed
import NameResolution.Proofs.Registration.Nesting

/-!
# The scope tree mirrors the tree

Every node that registration comes to and that has a scope owns exactly one, inside the scope of the nearest node above
that has one, and the scopes stand in the order of the tree. So going outward from a scope leads through the scopes of the
nodes above its owner, up to the scope of the root.
-/
namespace NameResolution
open Registration

/-- The kind of scope that nodes of a kind open. -/
def NodeKind.scopeKind? : NodeKind → Option ScopeKind
  | translationUnit => some .translationUnit
  | recordDecl => some .record
  | methodDecl | functionDecl => some .function
  | compound => some .block
  | forStatement | whileStatement => some .loop
  | ifStatement => some .condition
  | catchClause => some .handler
  | _ => none

theorem Payload.opens?_eq (p : Payload) : p.opens? = p.kind.scopeKind? := by
  cases p <;> rfl

/-- Going from a scope to the one around it leads through the listed scopes, and then no further. -/
inductive ScopeTree.Outward (S : ScopeTree) : ScopeId → List (ScopeId × Scope) → Prop
  | top {s : ScopeId} {sc : Scope} (scope : S.get? s = some sc) (parent : sc.parent = none) : Outward S s [(s, sc)]
  | inside {s q : ScopeId} {sc : Scope} {further : List (ScopeId × Scope)} (scope : S.get? s = some sc)
      (parent : sc.parent = some q) (rest : Outward S q further) : Outward S s ((s, sc) :: further)

/-- The scopes of the unit at `root` are those of the nodes that registration comes to, and they nest and are numbered as
these nodes are in the tree. -/
structure ScopeTree.Mirrors (S : ScopeTree) (t : Tree) (root : NodeId) : Prop where
  defined : ∀ x, (S.scopeOf? x).isSome = true ↔
    t.Reached root x ∧ ((t.kind? x).bind NodeKind.scopeKind?).isSome = true
  injective : ∀ {x y s}, S.scopeOf? x = some s → S.scopeOf? y = some s → x = y
  onto : ∀ s, s.index < S.size ↔ ∃ x, S.scopeOf? x = some s
  /-- A scope says what its owner is and where it stands. -/
  scope : ∀ {x s}, S.scopeOf? x = some s → ∃ sc, S.get? s = some sc ∧ sc.owner = x ∧
    (t.kind? x).bind NodeKind.scopeKind? = some sc.kind ∧ sc.parent = (t.ancestors x).findSome? S.scopeOf?
  rootScope : S.scopeOf? root = some ⟨0⟩
  top : ∀ {s sc}, S.get? s = some sc → (sc.parent = none ↔ sc.owner = root)
  earlier : ∀ {s sc q}, S.get? s = some sc → sc.parent = some q → q.index < s.index
  preorder : S.owners = (t.flatten root).filter fun x => (S.scopeOf? x).isSome
  outward : ∀ {s sc}, S.get? s = some sc → S.Outward s (S.ancestors s) ∧
    (S.ancestors s).map Prod.fst = s :: (t.ancestors sc.owner).filterMap S.scopeOf? ∧
    ((S.ancestors s).getLast?.map Prod.fst) = some ⟨0⟩

namespace Tree

section
variable {t : Tree} {root x : NodeId} {n : Node}

/-- What registration has added below a node are implicit fields. -/
theorem ProperIn.mem_implicitFields_iff {languages : Set String} {c : NodeId} (h : t.ProperIn languages)
    (hn : t.get? x = some n) (hc : c ∈ n.children) :
    c ∈ n.payload.implicitFields ↔ IsImplicitField t c := by
  constructor
  · intro hf
    cases hp : n.payload with
    | recordDecl r =>
      rw [hp] at hf
      rcases h.record hn hp with hbare | ⟨_, -, hsup⟩
      · rw [Payload.implicitFields, hbare.implicitFields_eq] at hf
        cases hf
      · obtain ⟨_, _, hm⟩ := hsup.implicit hf
        exact ⟨_, _, hm, rfl, rfl⟩
    | _ =>
      rw [hp] at hf
      cases hf
  · rintro ⟨m, f, hm, hf, hi⟩
    by_contra hnot
    obtain ⟨owner, k, r, hk, hr, hmem⟩ := h.owned hm hf hi
    obtain rfl := h.eq_of_child hk (Node.mem_children_of_implicitFields hr hmem) hn hc
    rw [hn] at hk
    cases hk
    rw [hr] at hnot
    exact hnot hmem

/-- What nests in a unit is what can be reached from its root, but for implicit fields. -/
theorem ProperIn.nests_iff {languages : Set String} (h : t.ProperIn languages) (hroot : ¬ IsImplicitField t root) :
    t.Nests root x ↔ t.Reached root x ∧ ¬ IsImplicitField t x := by
  constructor
  · intro hx
    suffices ∀ {a b}, t.Nests a b → t.Reached root a → ¬ IsImplicitField t a →
        t.Reached root b ∧ ¬ IsImplicitField t b from this hx .root hroot
    intro a b hab
    induction hab with
    | self => exact fun hreached hno => ⟨hreached, hno⟩
    | place hn hs _ ih =>
      intro hreached _
      obtain ⟨hkind, hchild, hno, hfields⟩ :=
        (Payload.mem_map_child_slots_iff (h.nodup_children hn)).mp (List.mem_map_of_mem hs)
      exact ih (hreached.child hn hkind hchild hno) fun hi => hfields ((h.mem_implicitFields_iff hn hchild).mpr hi)
  · rintro ⟨hx, hno⟩
    induction hx with
    | root => exact .self root
    | @child y c n hreached hn hkind hchild hover ih =>
      -- Below an implicit field there is at most an initializer, which is passed over.
      have hy : ¬ IsImplicitField t y := by
        rintro ⟨m, f, hm, hf, -⟩
        rw [hn] at hm
        cases hm
        rw [Node.children, hf] at hchild
        rw [hf] at hover
        exact hover hchild
      have hfields : c ∉ n.payload.implicitFields := fun hf => hno ((h.mem_implicitFields_iff hn hchild).mp hf)
      obtain ⟨s, hs, rfl⟩ := List.mem_map.mp
        ((Payload.mem_map_child_slots_iff (h.nodup_children hn)).mpr ⟨hkind, hchild, hover, hfields⟩)
      exact (ih hy).slot hn hs

end

theorem opensScope_eq (t : Tree) (x : NodeId) : t.opensScope x = ((t.kind? x).bind NodeKind.scopeKind?).isSome := by
  rw [opensScope, kind?]
  cases t.get? x with
  | none => rfl
  | some n =>
    rw [Option.any_some, Option.map_some, Option.bind_some, Node.kind, Payload.opens?_eq]

/-- Implicit fields have no scope. -/
theorem not_implicit_of_opensScope {t : Tree} {x : NodeId} (h : t.opensScope x = true) : ¬ IsImplicitField t x := by
  rintro ⟨m, f, hm, hf, -⟩
  rw [opensScope, hm, Option.any_some, hf] at h
  cases h

end Tree

namespace Registration.Nested
open NameResolution.Tree ScopeTree

variable {t : Tree} {S : ScopeTree} {s : ScopeId} {sc : Scope}

theorem outward_climb (h : Nested t S) {limit : Nat} (hs : S.get? s = some sc) (hlimit : s.index < limit) :
    S.Outward s (S.climb limit (some s)) := by
  induction limit generalizing s sc with
  | zero => omega
  | succ limit ih =>
    rw [ScopeTree.climb, hs]
    dsimp only
    cases hp : sc.parent with
    | none =>
      have hend : S.climb limit none = [] := by cases limit <;> rfl
      rw [hend]
      exact .top hs hp
    | some q =>
      have hlt := h.earlier hs hp
      obtain ⟨qc, hqc⟩ := exists_of_lt_size (Nat.lt_trans hlt (lt_size_of_get? hs))
      exact .inside hs hp (ih hqc (by omega))

end Registration.Nested

/-- The way outward ends at a scope without one around it. -/
theorem ScopeTree.Outward.exists_getLast? {S : ScopeTree} {s : ScopeId} {l : List (ScopeId × Scope)}
    (h : S.Outward s l) : ∃ q qc, l.getLast? = some (q, qc) ∧ S.get? q = some qc ∧ qc.parent = none := by
  induction h with
  | top hs hp => exact ⟨_, _, rfl, hs, hp⟩
  | inside hs hp rest ih =>
    obtain ⟨q, qc, hlast, hq, hnone⟩ := ih
    refine ⟨q, qc, ?_, hq, hnone⟩
    rw [List.getLast?_cons, hlast]
    rfl

namespace Tree
open ScopeTree

variable {languages : Set String} {config : Config} {t T : Tree} {root x : NodeId} {p : Registration.Progress}

/-- The root owns the first scope. -/
theorem RegistersIn.scopeOf?_root (h : RegistersIn languages config t root p) : p.scopes.scopeOf? root = some ⟨0⟩ := by
  obtain ⟨s, hs⟩ := h.exists_rootScope
  obtain ⟨k, hk, hkind, -⟩ := h.proper.root_parent h.root_eq
  have hopens : t.opensScope root = true := by
    rw [opensScope_eq, kind?, hk, Option.map_some, hkind]
    rfl
  have hfirst : p.scopes.owners[0]? = some root := by
    rw [h.owners_eq_filter_entered, depthLimit, steps, List.filterMap_cons_some (rfl : Step.entered? _ = some root),
      List.filter_cons_of_pos hopens]
    rfl
  rw [getElem?_owners p.scopes ⟨0⟩] at hfirst
  obtain ⟨sc, hsc, rfl⟩ := Option.map_eq_some_iff.mp hfirst
  exact h.nested.opened hsc

theorem RegistersIn.parent_eq_none_iff (h : RegistersIn languages config t root p) {s : ScopeId} {sc : Scope}
    (hs : p.scopes.get? s = some sc) : sc.parent = none ↔ sc.owner = root := by
  have hp := h.walked.proper.toWellFormed
  rw [h.nested.parent hs, enclosingScope?, List.head?_eq_none_iff, enclosingScopes, List.filterMap_eq_nil_iff]
  obtain ⟨n, hn, -⟩ := h.nested.owner hs
  constructor
  · intro hnone
    rcases hp.below_root h.root_eq' hn with heq | habove
    · exact heq.symm
    · have hscope := hnone root habove
      rw [h.scopeOf?_root] at hscope
      cases hscope
  · rintro rfl
    obtain ⟨r, hr, -, htop⟩ := hp.root_parent h.root_eq'
    rw [WellFormed.ancestors_of_top hr htop]
    exact fun a ha => absurd ha List.not_mem_nil

theorem RegistersIn.mirrors (h : RegistersIn languages config t root p) : p.scopes.Mirrors p.tree root := by
  have hp := h.walked.proper.toWellFormed
  have hnested := h.nested
  have hkind : ∀ {s sc}, p.scopes.get? s = some sc →
      (p.tree.kind? sc.owner).bind NodeKind.scopeKind? = some sc.kind := by
    intro s sc hs
    obtain ⟨n, hn, hopens⟩ := hnested.owner hs
    rw [kind?, hn, Option.map_some, Option.bind_some, Node.kind, ← Payload.opens?_eq, hopens]
  constructor
  case defined =>
    intro x
    rw [h.isSome_scopeOf?_iff, h.walked.proper.nests_iff (hp.root_not_implicit h.root_eq'), ← opensScope_eq]
    constructor
    · rintro ⟨⟨hreached, -⟩, hopens⟩
      exact ⟨hreached, hopens⟩
    · rintro ⟨hreached, hopens⟩
      exact ⟨⟨hreached, not_implicit_of_opensScope hopens⟩, hopens⟩
  case injective => exact fun hx hy => scopeOf?_inj hx hy
  case onto =>
    intro s
    constructor
    · intro hlt
      obtain ⟨sc, hsc⟩ := exists_of_lt_size hlt
      exact ⟨sc.owner, hnested.opened hsc⟩
    · rintro ⟨x, hx⟩
      exact lt_size_of_scopeOf? hx
  case scope =>
    intro x s hx
    obtain ⟨sc, hsc, rfl⟩ := get?_of_scopeOf? hx
    refine ⟨sc, hsc, rfl, hkind hsc, ?_⟩
    rw [hnested.parent hsc, enclosingScope?, enclosingScopes, List.head?_filterMap]
  case rootScope => exact h.scopeOf?_root
  case top => exact h.parent_eq_none_iff
  case earlier => exact hnested.earlier
  case preorder => exact h.owners_eq
  case outward =>
    intro s sc hs
    have hout : p.scopes.Outward s (p.scopes.ancestors s) := hnested.outward_climb hs (ScopeTree.lt_size_of_get? hs)
    refine ⟨hout, hnested.climb_eq hp hs (ScopeTree.lt_size_of_get? hs), ?_⟩
    obtain ⟨q, qc, hlast, hq, hnone⟩ := hout.exists_getLast?
    have hroot := (h.parent_eq_none_iff hq).mp hnone
    have hopened := hnested.opened hq
    rw [hroot, h.scopeOf?_root] at hopened
    rw [hlast, Option.map_some, ← hopened]

end Tree

/-- Whatever passes and registrations have been over the tree of a document, the scope tree of a registration that succeeds
mirrors the tree that it leaves behind. -/
theorem mirrors_of_register {document : SyntaxNode} {t T : Tree} {root : NodeId} {config : Config} {reg : Registration}
    (hdocument : Tree.ofSyntax document = .ok t) (hroot : t.root = some root) (hevolves : t.Evolves Set.univ T)
    (hreg : (T.register config root).result = .ok reg) : reg.scopes.Mirrors (T.register config root).tree root := by
  obtain ⟨hT, hext, -⟩ := hevolves.keeps (Tree.properIn_of_ofSyntax hdocument Set.univ)
  exact (Tree.registersIn_of_register hT (Set.mem_univ _) (hext.root.trans hroot) hreg).mirrors

/-- A pass in another language has been over the tree. -/
theorem mirrors_of_register_counter :
    Tree.ofSyntax counter = .ok counterTree ∧ counterTree.root = some ⟨6⟩ ∧
      counterTree.Evolves Set.univ (counterTree.resolve { language := .cpp }).tree ∧
      ((counterTree.resolve { language := .cpp }).tree.register {} ⟨6⟩).result = .ok ⟨counterUnit.scopes, #[]⟩ ∧
      counterUnit.scopes.Mirrors ((counterTree.resolve { language := .cpp }).tree.register {} ⟨6⟩).tree ⟨6⟩ := by
  have hdocument : Tree.ofSyntax counter = .ok counterTree := rfl
  have hroot : counterTree.root = some ⟨6⟩ := rfl
  have hevolves : counterTree.Evolves Set.univ (counterTree.resolve { language := .cpp }).tree :=
    .resolve .start (Set.mem_univ _)
  have hreg : ((counterTree.resolve { language := .cpp }).tree.register {} ⟨6⟩).result =
      .ok ⟨counterUnit.scopes, #[]⟩ := by decide +kernel
  exact ⟨hdocument, hroot, hevolves, hreg, mirrors_of_register hdocument hroot hevolves hreg⟩

end NameResolution
