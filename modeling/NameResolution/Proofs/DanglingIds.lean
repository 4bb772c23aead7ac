import NameResolution.Proofs.Document.Lowered
import NameResolution.Proofs.Respects
import NameResolution.Proofs.Size
import NameResolution.Tree.Builder

/-!
# Ids that point nowhere

A tree that is built by hand may hold ids of nodes that do not exist, and two nodes may hold the same id. A pass looks at
every id below the root, so that it succeeds only if each of them points to a node by the time it is looked at. That
is not the same as at the beginning: the nodes that a pass adds take up the next ids, and an id that pointed nowhere
before may come to point to one of them.
-/
namespace NameResolution

namespace Tree

/-- Trees that are built node by node. The ids that a node is given may be any. -/
inductive Built : Tree → Prop
  | empty : Built {}
  | setRegion {t} (h : Built t) (id region) : Built (t.setRegion id region)
  | addUnit {t} (h : Built t) (name declarations) : Built (t.addUnit name declarations).2
  | addRecord {t} (h : Built t) (name kind members) : Built (t.addRecord name kind members).2
  | addMethod {t} (h : Built t) (name isStatic parameters body) : Built (t.addMethod name isStatic parameters body).2
  | addFunction {t} (h : Built t) (name parameters body) : Built (t.addFunction name parameters body).2
  | addField {t} (h : Built t) (name typeName isStatic initializer) :
      Built (t.addField name typeName isStatic initializer).2
  | addVariable {t} (h : Built t) (name typeName initializer) : Built (t.addVariable name typeName initializer).2
  | addParameter {t} (h : Built t) (name typeName) : Built (t.addParameter name typeName).2
  | addCompound {t} (h : Built t) (statements) : Built (t.addCompound statements).2
  | addDeclStatement {t} (h : Built t) (declarations) : Built (t.addDeclStatement declarations).2
  | addReturn {t} (h : Built t) (value) : Built (t.addReturn value).2
  | addFor {t} (h : Built t) (initializer condition iteration body) :
      Built (t.addFor initializer condition iteration body).2
  | addWhile {t} (h : Built t) (condition body) : Built (t.addWhile condition body).2
  | addIf {t} (h : Built t) (declaration condition thenBranch elseBranch) :
      Built (t.addIf declaration condition thenBranch elseBranch).2
  | addTry {t} (h : Built t) (body clauses) : Built (t.addTry body clauses).2
  | addCatch {t} (h : Built t) (parameter body) : Built (t.addCatch parameter body).2
  | addReference {t} (h : Built t) (name) : Built (t.addReference name).2
  | addCallOf {t} (h : Built t) (name callee arguments) : Built (t.addCallOf name callee arguments).2
  | addCall {t} (h : Built t) (name arguments) : Built (t.addCall name arguments).2
  | addNew {t} (h : Built t) (typeName arguments) : Built (t.addNew typeName arguments).2
  | addBinary {t} (h : Built t) (operator lhs rhs) : Built (t.addBinary operator lhs rhs).2
  | addAccess {t} (h : Built t) (name base member) : Built (t.addAccess name base member).2
  | addMember {t} (h : Built t) (base name) : Built (t.addMember base name).2
  | addLiteral {t} (h : Built t) (value) : Built (t.addLiteral value).2

/-- What is listed below a node, and below what is listed there. The last id may point nowhere. -/
inductive Reaches (t : Tree) : NodeId → NodeId → Prop
  | self (id : NodeId) : Reaches t id id
  | child {id c x : NodeId} {n : Node} (node : t.get? id = some n) (child : c ∈ n.children)
      (rest : Reaches t c x) : Reaches t id x

/-- The nodes below `root` form a tree, from which ids that point nowhere may hang. -/
structure FormsTree (t : Tree) (root : NodeId) : Prop where
  root_not_listed : ∀ {id n}, t.Reaches root id → t.get? id = some n → root ∉ n.children
  listed_once : ∀ {id id' c n n' m}, t.Reaches root id → t.Reaches root id' → t.get? id = some n →
    t.get? id' = some n' → t.get? c = some m → c ∈ n.children → c ∈ n'.children → id = id' ∧ n.children.count c = 1

section
variable {t t' : Tree} {id : NodeId} {n : Node}

theorem IsFresh.alloc (h : t.IsFresh) (name : String) {p : Payload} (hp : ∀ r, p = .recordDecl r → r.IsBare) :
    (t.alloc name p).2.IsFresh := by
  intro id n r hn hr
  rcases cases_of_get?_alloc hn with ⟨rfl, rfl⟩ | ⟨m, hm, rfl⟩
  · exact hp r hr
  · rcases m.linkedBelow_payload t.nextId p id with heq | ⟨f, -, heq⟩
    · exact h hm (heq.symm.trans hr)
    · rw [heq] at hr
      cases hr

theorem IsFresh.alloc_of_kind (h : t.IsFresh) (name : String) {p : Payload} (hk : p.kind ≠ .recordDecl) :
    (t.alloc name p).2.IsFresh := by
  refine h.alloc name ?_
  rintro r rfl
  exact absurd rfl hk

/-- No record has implicit members before a pass. -/
theorem Built.isFresh (h : t.Built) : t.IsFresh := by
  induction h with
  | empty =>
    intro id n r hn
    cases hn
  | setRegion _ id region ih =>
    intro j n r hn hr
    obtain ⟨m, place, hm, rfl⟩ := cases_of_get?_setRegion hn
    exact ih hm hr
  | addRecord _ name kind members ih =>
    refine ih.alloc name ?_
    rintro _ ⟨⟩
    exact ⟨rfl, rfl, rfl⟩
  | addCall _ name arguments ih | addMember _ base name ih =>
    refine IsFresh.alloc_of_kind (IsFresh.alloc_of_kind ih name ?_) name ?_ <;> exact NodeKind.noConfusion
  | _ =>
    rename_i ih
    exact ih.alloc_of_kind _ NodeKind.noConfusion

/-- What is listed below a node stays so. -/
theorem children_subset_of_becomes {n' : Node} (h : n.Becomes n') (hbare : ∀ r, n.payload = .recordDecl r → r.IsBare) :
    n.children ⊆ n'.children := by
  have hp := h.payload
  rw [Node.children, Node.children]
  generalize n.payload = p at hp hbare
  generalize n'.payload = q at hp
  cases hp with
  | rebound hform =>
    have hc := congrArg Payload.children hform
    rw [Payload.children_bind, Payload.children_bind] at hc
    rw [hc]
    exact List.Subset.refl _
  | @filled r r' kind members =>
    obtain ⟨-, hthis, houter⟩ := hbare r rfl
    intro x hx
    simp only [Payload.children, hthis, houter, Option.toList_none, List.map_nil, List.append_nil] at hx
    simp only [Payload.children, members, List.mem_append]
    exact .inl (.inl hx)
  | writtenOut => exact List.nil_subset _

end
end Tree

namespace Binding
open NameResolution.Tree

variable {α β γ : Type} {c : Context} {t : Tree} {s s' : Set NodeId} {p : Progress} {id : NodeId} {n : Node}

/-- From the progress `p` the computation only adds to the tree. If it succeeds in a tree that `t` has become, then
the ids in `s` point to nodes. -/
structure SecuresFrom (t : Tree) (s : Set NodeId) (x : Walk α) (p : Progress) : Prop where
  toExtends : p.tree.Extends (endState (x.run p)).tree
  alive : t.Extends p.tree → ∀ {a p'}, x.run p = .ok a p' → ∀ y ∈ s, ∃ m, p'.tree.get? y = some m

def Secures (t : Tree) (s : Set NodeId) (x : Walk α) : Prop := ∀ p, SecuresFrom t s x p

theorem SecuresFrom.after {x : Walk α} {f : α → Walk β} {a : α} (hx : x.run p = .ok a p) (h : SecuresFrom t s (f a) p) :
    SecuresFrom t s (x >>= f) p := by
  have heq := run_bind_ok hx f
  constructor
  case toExtends =>
    rw [heq]
    exact h.toExtends
  case alive =>
    intro ht a p' hok
    exact h.alive ht (heq.symm.trans hok)

theorem SecuresFrom.of_error {x : Walk α} {e : ResolveError} (h : x.run p = .error e p) : SecuresFrom t s x p := by
  constructor
  case toExtends =>
    rw [h]
    exact .refl p.tree
  case alive =>
    intro _ a p' hok
    rw [h] at hok
    cases hok

/-- What is secured first stays so. -/
theorem SecuresFrom.bind {x : Walk α} {f : α → Walk β} (hx : SecuresFrom t s x p) (hf : ∀ a, Secures t s' (f a)) :
    SecuresFrom t (s ∪ s') (x >>= f) p := by
  have hext := hx.toExtends
  cases hr : x.run p with
  | error e p₁ =>
    rw [hr] at hext
    constructor
    case toExtends =>
      rw [run_bind_error hr]
      exact hext
    case alive =>
      intro _ b p' hok
      rw [run_bind_error hr] at hok
      cases hok
  | ok a p₁ =>
    rw [hr] at hext
    constructor
    case toExtends =>
      rw [run_bind_ok hr]
      exact hext.trans (hf a p₁).toExtends
    case alive =>
      intro ht b p' hok y hy
      rw [run_bind_ok hr] at hok
      rcases hy with hy | hy
      · obtain ⟨m, hm⟩ := hx.alive ht hr y hy
        have hlater := (hf a p₁).toExtends
        rw [hok] at hlater
        obtain ⟨m', hm', -⟩ := hlater.node hm
        exact ⟨m', hm'⟩
      · exact (hf a p₁).alive (ht.trans hext) hok y hy

theorem SecuresFrom.mono {x : Walk α} (h : SecuresFrom t s x p)
    (hs : t.Extends p.tree → ∀ y ∈ s', y ∈ s ∨ ∃ m, p.tree.get? y = some m) : SecuresFrom t s' x p := by
  refine ⟨h.toExtends, fun ht a p' hok y hy => ?_⟩
  rcases hs ht y hy with hy | ⟨m, hm⟩
  · exact h.alive ht hok y hy
  · have hext := h.toExtends
    rw [hok] at hext
    obtain ⟨m', hm', -⟩ := hext.node hm
    exact ⟨m', hm'⟩

theorem Secures.forM {xs : List γ} {f : γ → Walk PUnit} {s : γ → Set NodeId} (hf : ∀ c ∈ xs, Secures t (s c) (f c)) :
    Secures t {y | ∃ c ∈ xs, y ∈ s c} (xs.forM f) := by
  rw [List.forM_eq_forM]
  induction xs with
  | nil => exact fun p => ⟨.refl p.tree, fun _ _ _ _ y ⟨c, hc, _⟩ => by cases hc⟩
  | cons c xs ih =>
    intro p
    rw [List.forM_cons]
    refine ((hf c (by simp) p).bind fun _ => ih fun d hd => hf d (List.mem_cons_of_mem _ hd)).mono ?_
    rintro - y ⟨d, hd, hy⟩
    rcases List.mem_cons.mp hd with rfl | hd
    · exact .inl (.inl hy)
    · exact .inl (.inr ⟨d, hd, hy⟩)

theorem securesFrom_bindName {r : Resolution} (hn : p.tree.get? id = some n) (hp : n.payload = .reference r)
    (scope : ScopeId) (role : Role) : SecuresFrom t ∅ (bindName c id scope role) p := by
  refine ⟨?_, fun _ _ _ _ y hy => hy.elim⟩
  rw [bindName_run c scope role hn, endState_ok, named]
  split
  · exact extends_writeOutAccess hn hp _ _ _
  · exact extends_bind _ _ _

theorem secures_bindAccess (id base member : NodeId) (scope : ScopeId) (role : Role) :
    Secures t ∅ (bindAccess c id base member scope role) := by
  intro p
  cases hm : p.tree.get? member with
  | none => exact .of_error (run_bind_error (fetch_run_none hm) _)
  | some m =>
    refine ⟨?_, fun _ _ _ _ y hy => hy.elim⟩
    rw [bindAccess_run c id base scope role hm, endState_ok, accessed]
    exact (extends_bind _ _ _).trans (extends_bind _ _ _)

/-- The parts of an access are there, and the member half has nothing below it. -/
theorem accessParts_run (id : NodeId) (region : Option Region) (a : Access) (p : Progress) :
    (∃ e, (accessParts id region a).run p = .error e p) ∨
      ∃ base member m, a.base = some base ∧ a.member = some member ∧ p.tree.get? member = some m ∧
        m.kind = .reference ∧ (accessParts id region a).run p = .ok (base, member) p := by
  obtain ⟨base, member, implicitBase, resolution⟩ := a
  unfold accessParts
  cases base with
  | none => exact .inl ⟨_, rfl⟩
  | some base =>
    cases member with
    | none => exact .inl ⟨_, rfl⟩
    | some member =>
      dsimp only
      cases hm : p.tree.get? member with
      | none => exact .inl ⟨_, run_bind_error (fetch_run_none hm) _⟩
      | some m =>
        rw [run_bind_ok (fetch_run hm)]
        by_cases hk : m.kind = .reference
        · rw [if_pos hk]
          exact .inr ⟨base, member, m, rfl, rfl, hm, hk, rfl⟩
        · rw [if_neg hk]
          exact .inl ⟨_, rfl⟩

/-- Whatever is reached from a node is reached from what is listed below the node as it is now. -/
theorem reaches_cases (hfresh : t.IsFresh) (ht : t.Extends p.tree) (hn : p.tree.get? id = some n) {y : NodeId}
    (hy : t.Reaches id y) : (∃ d ∈ n.children, t.Reaches d y) ∨ ∃ m, p.tree.get? y = some m := by
  cases hy with
  | self => exact .inr ⟨n, hn⟩
  | child hm hd rest =>
    obtain ⟨n', hn', hb⟩ := ht.node hm
    rw [hn] at hn'
    cases hn'
    exact .inl ⟨_, children_subset_of_becomes hb (fun r hr => hfresh hm hr) hd, rest⟩

/-- A walk that succeeds leaves no id below its node that points nowhere. -/
theorem secures_visit (hfresh : t.IsFresh) (depth : Nat) (id : NodeId) (outer : ScopeId) (role : Role) :
    Secures t {y | t.Reaches id y} (visit c depth id outer role) := by
  induction depth generalizing id outer role with
  | zero => exact fun p => .of_error rfl
  | succ depth ih =>
    intro p
    cases hn : p.tree.get? id with
    | none =>
      rw [visit]
      exact .of_error (run_bind_error (fetch_run_none hn) _)
    | some n =>
      have hchildren : ∀ {x : Walk Unit}, SecuresFrom t {y | ∃ d ∈ n.children, t.Reaches d y} x p →
          SecuresFrom t {y | t.Reaches id y} x p := fun h => h.mono fun ht y hy => reaches_cases hfresh ht hn hy
      rw [visit]
      refine .after (fetch_run hn) (hchildren ?_)
      have hall : ∀ (ds : List NodeId) (scope : ScopeId),
          Secures t {y | ∃ d ∈ ds, t.Reaches d y} (ds.forM fun d => visit c depth d scope .value) :=
        fun ds scope => .forM fun d _ => ih d scope .value
      dsimp only
      split
      case h_1 r hp =>
        refine (securesFrom_bindName hn hp _ _).mono ?_
        rintro - y ⟨d, hd, -⟩
        rw [Node.children, hp] at hd
        cases hd
      case h_2 a hp =>
        rcases accessParts_run id n.region a p with ⟨e, he⟩ | ⟨base, member, m, hb, hm, hm', hk, hrun⟩
        · exact .of_error (run_bind_error he _)
        · refine .after hrun ?_
          refine ((ih base _ .value p).bind fun _ => secures_bindAccess id base member _ role).mono ?_
          -- Nothing is listed below the member half, which is a name now and was one before.
          rintro ht y ⟨d, hd, hy⟩
          rw [Node.children, hp, Payload.children, hb, hm] at hd
          rcases List.mem_cons.mp hd with rfl | hd
          · exact .inl (.inl hy)
          · obtain rfl := List.mem_singleton.mp hd
            rcases reaches_cases hfresh ht hm' hy with ⟨d, hd, -⟩ | hy
            · obtain ⟨r, hr⟩ := Node.exists_reference hk
              rw [Node.children, hr] at hd
              cases hd
            · exact .inr hy
      case h_3 => exact .of_error rfl
      case h_4 callee arguments hp =>
        refine ((ih callee _ .callee p).bind fun _ => hall arguments _).mono ?_
        rintro - y ⟨d, hd, hy⟩
        rw [Node.children, hp] at hd
        rcases List.mem_cons.mp hd with rfl | hd
        · exact .inl (.inl hy)
        · exact .inl (.inr ⟨d, hd, hy⟩)
      case h_5 => exact hall n.payload.children _ p

end Binding

namespace Tree
variable {t : Tree} {config : Config} {root x : NodeId} {u : ResolvedUnit}

/-- After a pass that succeeds, no id below the root points nowhere. -/
theorem IsFresh.alive_of_resolve (hfresh : t.IsFresh) (hroot : t.root = some root)
    (hu : (t.resolve config).result = .ok u) (hx : t.Reaches root x) :
    ∃ m, (t.resolve config).tree.get? x = some m := by
  rw [resolve] at hu ⊢
  cases hunit : t.unitRoot with
  | error e =>
    rw [hunit] at hu
    cases hu
  | ok r =>
    obtain rfl : root = r := Option.some.inj (hroot.symm.trans (root_of_unitRoot hunit))
    rw [hunit] at hu
    dsimp only at hu ⊢
    have hext := Registration.respects_extends.leaves_visit (fun p _ => .refl p.tree) config t.depthLimit root none
      { tree := t }
    cases hregister : (Registration.visit config t.depthLimit root none).run { tree := t } with
    | error e p =>
      simp only [register, hregister] at hu
      cases hu
    | ok _ p =>
      rw [hregister, endState_ok] at hext
      simp only [register, hregister, bindReferences] at hu ⊢
      cases hscope : p.scopes.scopeOf? root with
      | none =>
        simp only [hscope] at hu
        cases hu
      | some scope =>
        simp only [hscope] at hu ⊢
        have hvisit := Binding.secures_visit (c := ⟨p.scopes, config.ambiguity, config.separator⟩) hfresh
          p.tree.depthLimit root scope .value { tree := p.tree }
        cases hbind : (Binding.visit ⟨p.scopes, config.ambiguity, config.separator⟩ p.tree.depthLimit root scope
            .value).run { tree := p.tree } with
        | error e q =>
          simp only [hbind] at hu
          cases hu
        | ok _ q => exact hvisit.alive hext hbind x hx

end Tree

/-- An id below the root that points nowhere is an error, unless the pass itself adds a node which it then points to. -/
theorem resolve_error_of_dangling {t : Tree} {config : Config} {root x : NodeId} (hbuilt : t.Built)
    (hroot : t.root = some root) (hx : t.Reaches root x) (hdangling : (t.resolve config).tree.get? x = none) :
    ∃ e, (t.resolve config).result = .error e := by
  cases hresult : (t.resolve config).result with
  | error e => exact ⟨e, rfl⟩
  | ok u =>
    obtain ⟨m, hm⟩ := Tree.IsFresh.alive_of_resolve hbuilt.isFresh hroot hresult hx
    rw [hdangling] at hm
    cases hm

/-- A unit of an empty class and a variable whose initializer is the given id. -/
def initializedBy (initializer : NodeId) : Tree :=
  let t := (({} : Tree).addRecord "A" .classRecord []).2
  let t := (t.addVariable "v" (some "int") (some initializer)).2
  (t.addUnit "A.java" [⟨0⟩, ⟨1⟩]).2

theorem built_initializedBy (initializer : NodeId) : (initializedBy initializer).Built :=
  ((Tree.Built.empty.addRecord _ _ _).addVariable _ _ _).addUnit _ _

theorem resolve_error_of_dangling_initializedBy :
    (initializedBy ⟨9⟩).Built ∧ (initializedBy ⟨9⟩).root = some ⟨2⟩ ∧ (initializedBy ⟨9⟩).Reaches ⟨2⟩ ⟨9⟩ ∧
      ((initializedBy ⟨9⟩).resolve {}).tree.get? ⟨9⟩ = none ∧
      ∃ e, ((initializedBy ⟨9⟩).resolve {}).result = .error e := by
  have hdangling : ((initializedBy ⟨9⟩).resolve {}).tree.get? ⟨9⟩ = none :=
    Tree.get?_eq_none_iff.mpr (by decide +kernel)
  have hreaches : (initializedBy ⟨9⟩).Reaches ⟨2⟩ ⟨9⟩ :=
    .child rfl (List.mem_cons_of_mem _ (.head _)) (.child rfl (.head _) (.self ⟨9⟩))
  exact ⟨built_initializedBy ⟨9⟩, rfl, hreaches, hdangling,
    resolve_error_of_dangling (built_initializedBy ⟨9⟩) rfl hreaches hdangling⟩

/-- The next free id comes to be that of the implicit `this` of the class before it is looked at. -/
theorem dangling_accepted :
    (initializedBy ⟨3⟩).Built ∧ (initializedBy ⟨3⟩).root = some ⟨2⟩ ∧ (initializedBy ⟨3⟩).FormsTree ⟨2⟩ ∧
      (initializedBy ⟨3⟩).Reaches ⟨2⟩ ⟨3⟩ ∧ (initializedBy ⟨3⟩).get? ⟨3⟩ = none ∧
      ∃ u, ((initializedBy ⟨3⟩).resolve {}).result = .ok u := by
  have hnodes : ∀ {id n}, (initializedBy ⟨3⟩).get? id = some n →
      (id = ⟨0⟩ ∧ n.children = []) ∨ (id = ⟨1⟩ ∧ n.children = [⟨3⟩]) ∨ (id = ⟨2⟩ ∧ n.children = [⟨0⟩, ⟨1⟩]) := by
    rintro ⟨i⟩ n hn
    have hlt : i < 3 := Tree.lt_size_of_get? hn
    obtain rfl | rfl | rfl : i = 0 ∨ i = 1 ∨ i = 2 := by omega
    all_goals cases hn
    · exact .inl ⟨rfl, rfl⟩
    · exact .inr (.inl ⟨rfl, rfl⟩)
    · exact .inr (.inr ⟨rfl, rfl⟩)
  have hlisted : ∀ {id n c m}, (initializedBy ⟨3⟩).get? id = some n → c ∈ n.children →
      (initializedBy ⟨3⟩).get? c = some m → id = ⟨2⟩ ∧ n.children = [⟨0⟩, ⟨1⟩] := by
    intro id n c m hn hc hm
    rcases hnodes hn with ⟨rfl, h⟩ | ⟨rfl, h⟩ | h
    · rw [h] at hc
      cases hc
    · rw [h, List.mem_singleton] at hc
      subst hc
      cases hm
    · exact h
  have hforms : (initializedBy ⟨3⟩).FormsTree ⟨2⟩ := by
    constructor
    case root_not_listed =>
      rintro id n - hn hc
      have hchildren := (hlisted hn hc rfl).2
      rw [hchildren] at hc
      simp at hc
    case listed_once =>
      rintro id id' c n n' m - - hn hn' hm hc hc'
      obtain ⟨rfl, h⟩ := hlisted hn hc hm
      obtain ⟨rfl, -⟩ := hlisted hn' hc' hm
      rw [h] at hc ⊢
      exact ⟨rfl, List.count_eq_one_of_mem (by decide) hc⟩
  have hreaches : (initializedBy ⟨3⟩).Reaches ⟨2⟩ ⟨3⟩ :=
    .child rfl (List.mem_cons_of_mem _ (.head _)) (.child rfl (.head _) (.self ⟨3⟩))
  have hok : ((initializedBy ⟨3⟩).resolve {}).result.isOk = true := by decide +kernel
  refine ⟨built_initializedBy ⟨3⟩, rfl, hforms, hreaches, rfl, ?_⟩
  cases hresult : ((initializedBy ⟨3⟩).resolve {}).result with
  | ok u => exact ⟨u, rfl⟩
  | error e =>
    rw [hresult] at hok
    cases hok

end NameResolution
