import NameResolution.Proofs.Registration.Placement
import NameResolution.Proofs.SingleTree

/-!
# Malformed documents

A document is rejected if a node that registration comes to stands where none of its kind may, or if an access is
lacking its base or its name, and for nothing else. Which of the two it is, and at which node, is told by the
document alone: not by the language, nor by what becomes of ambiguous names, nor by the passes that went before.
-/
namespace NameResolution

namespace Payload

/-- The children of statements and declarations that nothing is declared in. -/
def passedOver : Payload → List NodeId
  | returnStatement value => value.toList
  | forStatement _ condition iteration _ => condition.toList ++ iteration.toList
  | whileStatement condition _ | ifStatement _ condition _ _ => condition.toList
  | fieldDecl f => f.initializer.toList
  | variableDecl l | parameterDecl l => l.initializer.toList
  | _ => []

/-- A child of the kind `k` may not stand where it does. -/
def Misfit (p : Payload) (child : NodeId) (k : NodeKind) : Prop :=
  match p with
  | recordDecl r => child ∈ r.members ∧ k ∉ [.fieldDecl, .methodDecl, .functionDecl, .recordDecl, .variableDecl]
  | methodDecl c | functionDecl c => child ∈ c.parameters ∧ k ≠ .parameterDecl
  | tryStatement _ clauses => child ∈ clauses ∧ k ≠ .catchClause
  | catchClause parameter _ => parameter = some child ∧ k ≠ .variableDecl ∧ k ≠ .parameterDecl
  | _ => False

def implicitFields : Payload → List NodeId
  | recordDecl r => r.implicitFields
  | _ => []

/-- Registration goes on to the children of a node that is no expression, unless they are passed over or were added by
registration. -/
theorem mem_map_child_slots_iff {p : Payload} (hnodup : p.children.Nodup) {c : NodeId} :
    c ∈ p.slots.map Slot.child ↔
      p.kind.isExpression = false ∧ c ∈ p.children ∧ c ∉ p.passedOver ∧ c ∉ p.implicitFields := by
  cases p with
  | recordDecl r =>
    rw [children_recordDecl] at hnodup
    have hapart := (List.nodup_append.mp hnodup).2.2
    simp only [slots, children_recordDecl, passedOver, implicitFields, kind, NodeKind.isExpression, Slot.map_child_only,
      List.mem_append]
    grind
  | forStatement initializer condition iteration body =>
    simp only [children, List.nodup_append, List.mem_append, Option.mem_toList] at hnodup
    simp only [slots, children, passedOver, implicitFields, kind, NodeKind.isExpression, Slot.map_child_free,
      List.mem_append, Option.mem_toList]
    grind
  | whileStatement condition body =>
    simp only [children, List.nodup_append, Option.mem_toList] at hnodup
    simp only [slots, children, passedOver, implicitFields, kind, NodeKind.isExpression, Slot.map_child_free,
      List.mem_append, Option.mem_toList]
    grind
  | ifStatement declaration condition thenBranch elseBranch =>
    simp only [children, List.nodup_append, List.mem_append, Option.mem_toList] at hnodup
    simp only [slots, children, passedOver, implicitFields, kind, NodeKind.isExpression, Slot.map_child_free,
      List.mem_append, Option.mem_toList]
    grind
  | _ =>
    simp [slots, children, passedOver, implicitFields, kind, NodeKind.isExpression, Slot.map_child_free,
      Slot.map_child_only]

/-- A child does not fit if its place allows no such kind. -/
theorem misfit_iff {p : Payload} {c : NodeId} {k : NodeKind} :
    p.Misfit c k ↔ ∃ s ∈ p.slots, s.child = c ∧ s.allows k = false := by
  cases p <;>
    simp [Misfit, slots, Slot.free, Slot.only, Slot.allows, memberKinds, or_and_right, exists_or]

end Payload

namespace Tree

/-- What registration comes to: the way from the root leads through no expression and nothing that is passed over. -/
inductive Reached (t : Tree) (root : NodeId) : NodeId → Prop
  | root : Reached t root root
  | child {x c : NodeId} {n : Node} (reached : Reached t root x) (node : t.get? x = some n)
      (notExpression : n.kind.isExpression = false) (child : c ∈ n.children) (notPassedOver : c ∉ n.payload.passedOver) :
      Reached t root c

/-- The errors for nodes that stand where none of their kind may. -/
inductive WronglyPlaced (t : Tree) (root : NodeId) : ResolveError → Prop
  | intro {x c : NodeId} {n k : Node} (reached : Reached t root x) (node : t.get? x = some n)
      (there : t.get? c = some k) (misfit : n.payload.Misfit c k.kind) :
      WronglyPlaced t root (.malformed c n.region (.misplaced n.kind k.kind))

/-- The errors for accesses without a base or without a name. -/
inductive IncompleteAccess (t : Tree) : ResolveError → Prop
  | noBase {x : NodeId} {n : Node} {a : Access} (node : t.get? x = some n) (access : n.payload = .member a)
      (noBase : a.base = none) : IncompleteAccess t (.malformed x n.region .noBase)
  | noName {x : NodeId} {n : Node} {a : Access} (node : t.get? x = some n) (access : n.payload = .member a)
      (hasBase : a.base ≠ none) (noName : n.name = "") : IncompleteAccess t (.malformed x n.region .noMember)

/-- Every access has a base and a name, and whatever registration comes to may stand where it does. -/
structure Resolvable (t : Tree) (root : NodeId) : Prop where
  complete : ∀ {x n a}, t.get? x = some n → n.payload = .member a → a.base ≠ none ∧ n.name ≠ ""
  placed : ∀ {x n c k}, t.Reached root x → t.get? x = some n → t.get? c = some k → ¬ n.payload.Misfit c k.kind

theorem resolvable_iff {t : Tree} {root : NodeId} :
    t.Resolvable root ↔ (∀ e, ¬ t.WronglyPlaced root e) ∧ ∀ e, ¬ t.IncompleteAccess e := by
  constructor
  · intro h
    constructor
    · rintro _ ⟨hreached, hn, hk, hmisfit⟩
      exact h.placed hreached hn hk hmisfit
    · rintro _ (⟨hn, hp, hb⟩ | ⟨hn, hp, -, hname⟩)
      · exact (h.complete hn hp).1 hb
      · exact (h.complete hn hp).2 hname
  · rintro ⟨hplaced, hcomplete⟩
    constructor
    · intro x n a hn hp
      by_cases hb : a.base = none
      · exact absurd (.noBase hn hp hb) (hcomplete _)
      · exact ⟨hb, fun hname => hcomplete _ (.noName hn hp hb hname)⟩
    · exact fun hreached hn hk hmisfit => hplaced _ (.intro hreached hn hk hmisfit)

section
variable {t : Tree} {root x : NodeId} {n : Node} {s : Slot} {e : ResolveError}

theorem Nests.slot (h : t.Nests root x) (hn : t.get? x = some n) (hs : s ∈ n.payload.slots) : t.Nests root s.child := by
  induction h with
  | self => exact .place hn hs (.self _)
  | place hm hs' _ ih => exact .place hm hs' (ih hn)

/-- Before any pass, what nests in a unit is what can be reached from its root. -/
theorem IsFresh.nests_iff (hfresh : t.IsFresh) (ht : t.WellFormed) : t.Nests root x ↔ t.Reached root x := by
  have hfields : ∀ {y n}, t.get? y = some n → n.payload.implicitFields = [] := by
    intro y n hn
    cases hp : n.payload with
    | recordDecl r => exact (hfresh hn hp).implicitFields_eq
    | _ => rfl
  constructor
  · intro h
    suffices ∀ {a b}, t.Nests a b → t.Reached root a → t.Reached root b from this h .root
    intro a b h
    induction h with
    | self => exact id
    | place hn hs _ ih =>
      intro hreached
      obtain ⟨hkind, hchild, hno, -⟩ :=
        (Payload.mem_map_child_slots_iff (ht.nodup_children hn)).mp (List.mem_map_of_mem hs)
      exact ih (hreached.child hn hkind hchild hno)
  · intro h
    induction h with
    | root => exact .self root
    | child _ hn hkind hchild hno ih =>
      obtain ⟨s, hs, rfl⟩ := List.mem_map.mp ((Payload.mem_map_child_slots_iff (ht.nodup_children hn)).mpr
        ⟨hkind, hchild, hno, by rw [hfields hn]; exact List.not_mem_nil⟩)
      exact ih.slot hn hs

theorem IsFresh.misplaces_iff (hfresh : t.IsFresh) (ht : t.WellFormed) :
    t.Misplaces root e ↔ t.WronglyPlaced root e := by
  constructor
  · rintro ⟨hnests, hn, hs, hk, hno⟩
    exact .intro ((hfresh.nests_iff ht).mp hnests) hn hk (Payload.misfit_iff.mpr ⟨_, hs, rfl, hno⟩)
  · rintro ⟨hreached, hn, hk, hmisfit⟩
    obtain ⟨s, hs, rfl, hno⟩ := Payload.misfit_iff.mp hmisfit
    exact .intro ((hfresh.nests_iff ht).mpr hreached) hn hs hk hno

/-- In the tree of a document, an access lacks a part if it has no base or no name. -/
theorem incompleteAccess_iff {document : SyntaxNode} (hdocument : ofSyntax document = .ok t) :
    t.IncompleteAccess e ↔ ∃ x region fault, t.lack? x = some (region, fault) ∧ e = .malformed x region fault := by
  constructor
  · rintro (⟨hn, hp, hb⟩ | ⟨hn, hp, hb, hname⟩)
    · exact ⟨_, _, _, lack?_eq_some_iff.mpr ⟨_, _, hn, rfl, hp, Access.fault?_eq_some_iff.mpr (.inl ⟨hb, rfl⟩)⟩, rfl⟩
    · have hm := (member_eq_none_iff_of_ofSyntax hdocument hn hp).mpr hname
      have hf := Access.fault?_eq_some_iff.mpr (.inr ⟨Option.ne_none_iff_exists'.mp hb, hm, rfl⟩)
      exact ⟨_, _, _, lack?_eq_some_iff.mpr ⟨_, _, hn, rfl, hp, hf⟩, rfl⟩
  · rintro ⟨x, region, fault, hlack, rfl⟩
    obtain ⟨n, a, hn, rfl, hp, hf⟩ := lack?_eq_some_iff.mp hlack
    rcases Access.fault?_eq_some_iff.mp hf with ⟨hb, rfl⟩ | ⟨⟨b, hb⟩, hm, rfl⟩
    · exact .noBase hn hp hb
    · exact .noName hn hp (by simp [hb]) ((member_eq_none_iff_of_ofSyntax hdocument hn hp).mp hm)

end

section
variable {languages : Set String} {config : Config} {t T : Tree} {root : NodeId}

/-- How a pass over a tree ends that other passes may have been over. -/
theorem WellFormed.resolve_cases (ht : t.WellFormed) (hroot : t.root = some root) (hT : T.ProperIn languages)
    (hlanguage : config.separator ∈ languages) (hext : t.Extends T)
    (hkeeps : ∀ e, t.Misplaces root e → t.KeepsAllButRecords T) (hlack : ∀ x, T.lack? x = t.lack? x) :
    (∃ u, (T.resolve config).result = .ok u ∧ (∀ e, ¬ t.Misplaces root e) ∧ ∀ x, t.lack? x = none) ∨
      ∃ e, (T.resolve config).result = .error e ∧
        (t.Misplaces root e ∨
          (∀ e', ¬ t.Misplaces root e') ∧
            (∃ x region fault, t.lack? x = some (region, fault) ∧ e = .malformed x region fault) ∨
          config.duplicates = .fatal ∧ ∃ name first repeated region, e = .duplicate name first repeated region) := by
  obtain ⟨k, hk, -⟩ := ht.root_parent hroot
  have hrootT := hext.root.trans hroot
  have hsteps := Registration.steps_again ht hT.toWellFormed hext hk (t.lt_depthLimit root) (T.lt_depthLimit root)
  cases hreg : runSteps (Registration.exec config) (Registration.steps t t.depthLimit root) { tree := T } with
  | error e q =>
    refine .inr ⟨e, by rw [resolve_of_error hT hlanguage hrootT (hsteps ▸ hreg)], ?_⟩
    rcases Registration.registration_error_cases ht hk hT hlanguage hext hkeeps hreg with he | he
    · exact .inl he
    · exact .inr (.inr he)
  | ok _ p =>
    have hnone : ∀ e, ¬ t.Misplaces root e := fun e =>
      Registration.not_misplaces_of_registration ht hk hT hlanguage hext hkeeps hreg
    have hregisters : RegistersIn languages config T root p := ⟨hT, hlanguage, hrootT, hsteps ▸ hreg⟩
    cases hbind : runSteps (Binding.exec ⟨p.scopes, config.ambiguity, config.separator⟩)
        (p.tree.bindingSteps p.scopes root) { tree := p.tree } with
    | error e q =>
      refine .inr ⟨e, by rw [resolve_of_binding_error hregisters hbind], .inr (.inl ⟨hnone, ?_⟩)⟩
      obtain ⟨x, region, fault, hx, he⟩ := hregisters.exists_lack_of_binding_error hbind
      exact ⟨x, region, fault, hlack x ▸ hx, he⟩
    | ok _ q =>
      have hok := resolve_of_binding hregisters hbind
      have hu : (T.resolve config).result = .ok (p.unit root q) := by rw [hok]
      obtain ⟨_, hpass⟩ := exists_passIn hT hlanguage hu
      exact .inl ⟨_, hu, hnone, fun x => hlack x ▸ hpass.lack?_eq_none x⟩

/-- How a pass over the tree of a document ends, whatever passes have been over it. -/
theorem resolve_cases_of_ofSyntax {document : SyntaxNode} (hdocument : ofSyntax document = .ok t)
    (hroot : t.root = some root) (history : List Config) (config : Config) :
    (∃ u, ((t.resolveAll history).resolve config).result = .ok u ∧ t.Resolvable root) ∨
      ∃ e, ((t.resolveAll history).resolve config).result = .error e ∧
        (t.WronglyPlaced root e ∨
          (∀ e', ¬ t.WronglyPlaced root e') ∧ t.IncompleteAccess e ∨
          config.duplicates = .fatal ∧ ∃ name first repeated region, e = .duplicate name first repeated region) := by
  have ht := properIn_of_ofSyntax hdocument Set.univ
  have hfresh : t.IsFresh := isFresh_of_ofSyntax hdocument
  have hlanguages : ∀ config ∈ history, config.separator ∈ (Set.univ : Set String) := fun _ _ => Set.mem_univ _
  obtain ⟨hT, hext⟩ := ht.resolveAll_keeps hlanguages
  have hkeeps : ∀ e, t.Misplaces root e → t.KeepsAllButRecords (t.resolveAll history) := fun e he =>
    he.keeps_resolveAll ht.toWellFormed hroot ht (.refl t) (KeepsAllButRecords.refl t) hlanguages
  have hplaced : ∀ e, t.Misplaces root e ↔ t.WronglyPlaced root e := fun e => hfresh.misplaces_iff ht.toWellFormed
  rcases ht.toWellFormed.resolve_cases hroot hT (Set.mem_univ config.separator) hext hkeeps
    (respects_lack?.resolveAll t history) with ⟨u, hu, hnone, hlack⟩ | ⟨e, he, h⟩
  · refine .inl ⟨u, hu, resolvable_iff.mpr ⟨fun e => (hplaced e).not.mp (hnone e), fun e he => ?_⟩⟩
    obtain ⟨x, _, _, hx, -⟩ := (incompleteAccess_iff hdocument).mp he
    rw [hlack x] at hx
    cases hx
  · refine .inr ⟨e, he, ?_⟩
    rw [incompleteAccess_iff hdocument]
    simpa only [hplaced] using h

end
end Tree

/-- Whatever passes have been over the tree of a document, a pass that keeps the first of duplicates succeeds just if
the document is well-formed. A pass fails over a node that is wrongly placed; over an access that is incomplete, if
no node is wrongly placed; or over a duplicate, where duplicates are errors. -/
theorem resolve_of_malformed {document : SyntaxNode} {t : Tree} {root : NodeId}
    (hdocument : Tree.ofSyntax document = .ok t) (hroot : t.root = some root) (history : List Config)
    (config : Config) :
    (config.duplicates = .keepFirst →
      ((∃ u, ((t.resolveAll history).resolve config).result = .ok u) ↔ t.Resolvable root)) ∧
    ∀ e, ((t.resolveAll history).resolve config).result = .error e →
      t.WronglyPlaced root e ∨
        (∀ e', ¬ t.WronglyPlaced root e') ∧ t.IncompleteAccess e ∨
        config.duplicates = .fatal ∧ ∃ name first repeated region, e = .duplicate name first repeated region := by
  rcases Tree.resolve_cases_of_ofSyntax hdocument hroot history config with ⟨u, hu, hresolvable⟩ | ⟨e, he, h⟩
  · refine ⟨fun _ => ⟨fun _ => hresolvable, fun _ => ⟨u, hu⟩⟩, fun e he => ?_⟩
    rw [hu] at he
    cases he
  · constructor
    · intro hkeepFirst
      constructor
      · rintro ⟨u, hu⟩
        rw [he] at hu
        cases hu
      · intro hresolvable
        obtain ⟨hplaced, hcomplete⟩ := Tree.resolvable_iff.mp hresolvable
        rcases h with h | ⟨-, h⟩ | ⟨hfatal, -⟩
        · exact absurd h (hplaced e)
        · exact absurd h (hcomplete e)
        · rw [hkeepFirst] at hfatal
          cases hfatal
    · intro e' he'
      rw [he] at he'
      cases he'
      exact h

/-- A class whose only member is a statement, which returns an access without a base. -/
def strayReturn : SyntaxNode :=
  let node := SyntaxNode.mk none none
  let access := node <| .member none (some "x")
  node <| .translationUnit "A.java" [node <| .recordDecl "A" .classRecord [node <| .returnStatement (some access)]]

def strayReturnTree : Tree := (strayReturn.lower.run {}).2

/-- The access is not told of, since the statement is wrongly placed. -/
theorem resolve_of_malformed_strayReturn :
    Tree.ofSyntax strayReturn = .ok strayReturnTree ∧ strayReturnTree.root = some ⟨4⟩ ∧
      ((strayReturnTree.resolveAll [{ duplicates := .fatal }]).resolve {}).result =
        .error (.malformed ⟨2⟩ none (.misplaced .recordDecl .returnStatement)) ∧
      strayReturnTree.WronglyPlaced ⟨4⟩ (.malformed ⟨2⟩ none (.misplaced .recordDecl .returnStatement)) ∧
      ¬ strayReturnTree.Resolvable ⟨4⟩ := by
  have hdocument : Tree.ofSyntax strayReturn = .ok strayReturnTree := rfl
  have hroot : strayReturnTree.root = some ⟨4⟩ := rfl
  have hfails : ((strayReturnTree.resolveAll [{ duplicates := .fatal }]).resolve {}).result =
      .error (.malformed ⟨2⟩ none (.misplaced .recordDecl .returnStatement)) := by decide +kernel
  obtain ⟨hiff, herror⟩ := resolve_of_malformed hdocument hroot [{ duplicates := .fatal }] {}
  refine ⟨hdocument, hroot, hfails, ?_, fun hresolvable => ?_⟩
  · rcases herror _ hfails with h | ⟨-, h⟩ | ⟨hfatal, -⟩
    · exact h
    · generalize he : ResolveError.malformed _ _ (.misplaced .recordDecl .returnStatement) = e at h
      cases h <;> simp at he
    · cases hfatal
  · obtain ⟨u, hu⟩ := (hiff rfl).mpr hresolvable
    rw [hfails] at hu
    cases hu

end NameResolution
