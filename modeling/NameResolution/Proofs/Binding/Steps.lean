import NameResolution.Binding
import NameResolution.Proofs.Scope.Enclosing
import NameResolution.Proofs.StepRuns
import NameResolution.Proofs.Tree.Proper

/-!
# Binding as a list of steps

Which names and accesses a walk binds, and in which order, is laid out beforehand: the walk changes only
nodes that it has bound already, so that each node it comes to is as it was in the beginning. An access is
bound after its base.
-/
namespace NameResolution

/-- What a child of a node is used for. -/
def Payload.roleOf (p : Payload) (child : NodeId) : Role :=
  match p with
  | .call callee _ => if callee = some child then .callee else .value
  | _ => .value

/-- What a node is used for in its parent. -/
def Tree.roleOf (t : Tree) (id : NodeId) : Role :=
  match ((t.get? id).bind Node.parent).bind t.get? with
  | some p => p.payload.roleOf id
  | none => .value

def Access.fault? (a : Access) : Option Fault :=
  match a.base, a.member with
  | none, _ => some .noBase
  | some _, none => some .noMember
  | some _, some _ => none

namespace Access
variable {a : Access} {fault : Fault}

/-- An access lacks its base, or else its member half. -/
theorem fault?_eq_some_iff :
    a.fault? = some fault ↔
      a.base = none ∧ fault = .noBase ∨ (∃ b, a.base = some b) ∧ a.member = none ∧ fault = .noMember := by
  obtain ⟨base, member, implicitBase, resolution⟩ := a
  cases base <;> cases member <;> simp [fault?, eq_comm]

theorem fault?_eq_none_iff : a.fault? = none ↔ ∃ b m, a.base = some b ∧ a.member = some m := by
  obtain ⟨base, member, implicitBase, resolution⟩ := a
  cases base <;> cases member <;> simp [fault?]

end Access

namespace Binding
open NameResolution.Tree

inductive Step where
  | name (id : NodeId) (scope : ScopeId) (role : Role)
  | access (id base member : NodeId) (scope : ScopeId) (role : Role)
  | fail (e : ResolveError)

/-- The nodes that a step binds. -/
def Step.targets : Step → List NodeId
  | name id _ _ => [id]
  | access id _ member _ _ => [member, id]
  | fail _ => []

/-- The nodes that a step depends on by its place. -/
def Step.reads : Step → List NodeId
  | name id _ _ => [id]
  | access id base member _ _ => [member, id, base]
  | fail _ => []

def Step.node? : Step → Option NodeId
  | name id _ _ => some id
  | access id _ _ _ _ => some id
  | fail _ => none

theorem Step.targets_subset_reads (s : Step) : s.targets ⊆ s.reads := by
  cases s <;> simp [targets, reads]

/-- The steps for the references at and below a node, to the given depth. -/
def steps (S : ScopeTree) (t : Tree) : Nat → NodeId → ScopeId → Role → List Step
  | 0, _, _, _ => []
  | depth + 1, id, outer, role =>
    match t.get? id with
    | none => []
    | some n =>
      let scope := (S.scopeOf? id).getD outer
      match n.payload with
      | .reference _ => [.name id scope role]
      | .member a =>
        match a.base, a.member with
        | none, _ => [.fail (.malformed id n.region .noBase)]
        | some _, none => [.fail (.malformed id n.region .noMember)]
        | some base, some member =>
          steps S t depth base scope .value ++ [.access id base member scope role]
      | p => p.children.flatMap fun c => steps S t depth c scope (p.roleOf c)

def exec (c : Context) : Step → Walk Unit
  | .name id scope role => bindName c id scope role
  | .access id base member scope role => bindAccess c id base member scope role
  | .fail e => throw e

/-- An access that a name is written out to: the name of its base, what the base is bound to, and the field
that is accessed. -/
structure ImplicitAccess where
  name : String
  base : NodeId
  field : NodeId

/-- What a name is bound to by its level. -/
def lexical (c : Context) (t : Tree) (name : String) (scope : ScopeId) (role : Role) : Resolution :=
  match Level.find? t c.scopes scope name role with
  | none => .unresolved
  | some level => c.policy.apply level.candidates

/-- The access that a name is written out to, if it is. -/
def written? (c : Context) (t : Tree) (name : String) (scope : ScopeId) (role : Role) :
    Option ImplicitAccess := do
  let level ← Level.find? t c.scopes scope name role
  let field ← instanceField? t level role (c.policy.apply level.candidates)
  let (name, base) ← receiver? c t level.scope.owner scope
  pure { name, base, field }

/-- A name that is written out is bound to the field that is accessed. -/
theorem lexical_of_written {c : Context} {t : Tree} {name : String} {scope : ScopeId} {role : Role}
    {w : ImplicitAccess} (h : written? c t name scope role = some w) :
    lexical c t name scope role = .single w.field := by
  simp only [written?, Option.bind_eq_bind, Option.bind_eq_some_iff, Option.pure_def, Option.some.injEq] at h
  obtain ⟨level, hlevel, field, hfield, p, -, rfl⟩ := h
  rw [lexical, hlevel]
  rw [instanceField?] at hfield
  split at hfield
  · exact Resolution.single?_eq_some.mp (Option.eq_some_of_filter_eq_some hfield)
  · cases hfield

def named (c : Context) (p : Progress) (id : NodeId) (name : String) (scope : ScopeId) (role : Role) :
    Progress :=
  match written? c p.tree name scope role with
  | some w =>
    { tree := p.tree.writeOutAccess id w.name (.single w.base) (.single w.field)
      bindings := { p.bindings with
        resolved := p.bindings.resolved + 1
        implicitMembers := p.bindings.implicitMembers + 1 } }
  | none =>
    { tree := p.tree.bind id (lexical c p.tree name scope role)
      bindings := p.bindings.record id (lexical c p.tree name scope role) }

def accessed (p : Progress) (id member : NodeId) (r : Resolution) : Progress :=
  { tree := (p.tree.bind member r).bind id r, bindings := p.bindings.record member r }

section
variable {c : Context} {p : Progress} {id base member x : NodeId} {n m : Node} {scope : ScopeId} {role : Role}

theorem fetch_run (hn : p.tree.get? id = some n) : (fetch id).run p = .ok n p := by
  simp [fetch, hn]

theorem fetch_run_none (hn : p.tree.get? id = none) :
    (fetch id).run p = .error (.malformed id none .dangling) p := by
  simp [fetch, hn]
  rfl

theorem bindName_run (c : Context) (scope : ScopeId) (role : Role) (hn : p.tree.get? id = some n) :
    (bindName c id scope role).run p = .ok () (named c p id n.name scope role) := by
  rw [bindName, run_bind_ok (fetch_run hn), run_bind_ok (EStateM.run_get ..), named, written?, lexical]
  cases Level.find? p.tree c.scopes scope n.name role with
  | none => rfl
  | some level =>
    simp only [Option.bind_eq_bind, Option.bind_some]
    rw [bindAt, run_bind_ok (EStateM.run_get ..)]
    dsimp only
    cases instanceField? p.tree level role (c.policy.apply level.candidates) with
    | none => rfl
    | some field =>
      cases receiver? c p.tree level.scope.owner scope with
      | none => rfl
      | some receiver => rfl

theorem bindAccess_run (c : Context) (id base : NodeId) (scope : ScopeId) (role : Role)
    (hm : p.tree.get? member = some m) :
    (bindAccess c id base member scope role).run p =
      .ok () (accessed p id member
        (memberOf c p.tree (recordOfBase? c p.tree base scope) m.name role)) := by
  rw [bindAccess, run_bind_ok (fetch_run hm), run_bind_ok (EStateM.run_get ..)]
  rfl

theorem kept_named (hn : p.tree.get? id = some n) (hx : x ≠ id) (hm : p.tree.get? x = some m)
    (name : String) : (named c p id name scope role).tree.get? x = some m := by
  rw [named]
  cases written? c p.tree name scope role with
  | none => exact (get?_bind ..).trans ((if_neg (Ne.symm hx)).trans hm)
  | some w =>
    simp only
    have hlt := lt_size_of_get? hm
    rw [get?_writeOutAccess _ _ _ hn, if_neg hx, if_neg (ne_nextId_of_get? hm), if_neg, hm]
    rintro rfl
    simp only at hlt
    omega

theorem kept_accessed (hx : x ≠ id) (hx' : x ≠ member) (hm : p.tree.get? x = some m) (r : Resolution) :
    (accessed p id member r).tree.get? x = some m := by
  rw [accessed, get?_bind, if_neg (Ne.symm hx), get?_bind, if_neg (Ne.symm hx'), hm]

/-- What a step may come to: it binds what it is there to bind, or it fails and leaves everything as it is. -/
inductive Step.Effect (c : Context) (p : Progress) : Step → EStateM.Result ResolveError Progress Unit → Prop
  | fails {s : Step} (e : ResolveError) : Effect c p s (.error e p)
  | name {id : NodeId} {n : Node} {scope : ScopeId} {role : Role} (node : p.tree.get? id = some n) :
      Effect c p (.name id scope role) (.ok () (named c p id n.name scope role))
  | access {id base member : NodeId} {m : Node} {scope : ScopeId} {role : Role}
      (node : p.tree.get? member = some m) :
      Effect c p (.access id base member scope role)
        (.ok () (accessed p id member (memberOf c p.tree (recordOfBase? c p.tree base scope) m.name role)))

theorem exec_effect (c : Context) (p : Progress) (s : Step) : s.Effect c p ((exec c s).run p) := by
  cases s with
  | fail e => exact .fails e
  | name id scope role =>
    cases hn : p.tree.get? id with
    | none =>
      rw [exec, bindName, run_bind_error (fetch_run_none hn)]
      exact .fails _
    | some n =>
      rw [exec, bindName_run c scope role hn]
      exact .name hn
  | access id base member scope role =>
    cases hm : p.tree.get? member with
    | none =>
      rw [exec, bindAccess, run_bind_error (fetch_run_none hm)]
      exact .fails _
    | some m =>
      rw [exec, bindAccess_run c id base scope role hm]
      exact .access hm

/-- A step leaves every node alone that it does not bind. -/
theorem exec_kept {s : Step} (hx : x ∉ s.targets) (hm : p.tree.get? x = some m) :
    (endState ((exec c s).run p)).tree.get? x = some m := by
  have heffect := exec_effect c p s
  generalize (exec c s).run p = result at heffect ⊢
  cases heffect with
  | fails e => exact hm
  | name hn => exact kept_named hn (by simpa [Step.targets] using hx) hm _
  | @access id base member k scope role hk =>
    have hne : ¬ (x = member ∨ x = id) := by simpa [Step.targets] using hx
    exact kept_accessed (fun h => hne (.inr h)) (fun h => hne (.inl h)) hm _

theorem runSteps_kept {xs : List Step} (hx : ∀ s ∈ xs, x ∉ s.targets) (hm : p.tree.get? x = some m) :
    (endState (runSteps (exec c) xs p)).tree.get? x = some m := by
  refine endState_runSteps (I := fun q : Progress => q.tree.get? x = some m) ?_ hm
  exact fun s hs q hq => exec_kept (hx s hs) hq

end

section
variable {S : ScopeTree} {t : Tree} {id x owner base member : NodeId} {n : Node} {outer : ScopeId} {role : Role}
  {depth : Nat}

theorem steps_of_reference {r : Resolution} (hn : t.get? id = some n) (hp : n.payload = .reference r) :
    steps S t (depth + 1) id outer role = [.name id ((S.scopeOf? id).getD outer) role] := by
  rw [steps, hn]
  simp only [hp]

theorem steps_of_access {a : Access} (hn : t.get? id = some n) (hp : n.payload = .member a)
    (hb : a.base = some base) (hm : a.member = some member) :
    steps S t (depth + 1) id outer role =
      steps S t depth base ((S.scopeOf? id).getD outer) .value ++
        [.access id base member ((S.scopeOf? id).getD outer) role] := by
  rw [steps, hn]
  simp only [hp, hb, hm]

theorem steps_of_fault {a : Access} {fault : Fault} (hn : t.get? id = some n) (hp : n.payload = .member a)
    (hf : a.fault? = some fault) :
    steps S t (depth + 1) id outer role = [.fail (.malformed id n.region fault)] := by
  rw [steps, hn]
  rcases Access.fault?_eq_some_iff.mp hf with ⟨hb, rfl⟩ | ⟨⟨b, hb⟩, hm, rfl⟩
  · simp only [hp, hb]
  · simp only [hp, hb, hm]

theorem steps_of_not_reference (hn : t.get? id = some n) (hk : n.kind.isReference = false) :
    steps S t (depth + 1) id outer role = n.children.flatMap fun c =>
      steps S t depth c ((S.scopeOf? id).getD outer) (n.payload.roleOf c) := by
  rw [steps, hn]
  obtain ⟨_, _, _, _, payload⟩ := n
  cases payload <;> first | rfl | cases hk

/-- What a node is to the walk. -/
theorem node_cases (n : Node) :
    (∃ r, n.payload = .reference r) ∨
    (∃ a b m, n.payload = .member a ∧ a.base = some b ∧ a.member = some m) ∨
    (∃ a fault, n.payload = .member a ∧ a.fault? = some fault) ∨ n.kind.isReference = false := by
  obtain ⟨_, _, _, _, payload⟩ := n
  cases payload with
  | reference r => exact .inl ⟨r, rfl⟩
  | member a =>
    cases hf : a.fault? with
    | none =>
      obtain ⟨b, m, hb, hm⟩ := Access.fault?_eq_none_iff.mp hf
      exact .inr (.inl ⟨a, b, m, rfl, hb, hm⟩)
    | some fault => exact .inr (.inr (.inl ⟨a, fault, rfl, hf⟩))
  | _ => exact .inr (.inr (.inr rfl))

theorem base_mem_children {a : Access} (hp : n.payload = .member a) (hb : a.base = some base) :
    base ∈ n.children := by
  simp [Node.children, hp, Payload.children, hb]

theorem member_mem_children {a : Access} (hp : n.payload = .member a) (hm : a.member = some member) :
    member ∈ n.children := by
  simp [Node.children, hp, Payload.children, hm]

/-- A step depends on nodes at or below the node that the walk is at. -/
theorem below_of_mem_reads (ht : t.WellFormed) {s : Step} (hs : s ∈ steps S t depth id outer role)
    (hx : x ∈ s.reads) : t.Below id x := by
  induction depth generalizing id outer role with
  | zero => cases hs
  | succ depth ih =>
    cases hn : t.get? id with
    | none => simp [steps, hn] at hs
    | some n =>
      rcases node_cases n with ⟨r, hp⟩ | ⟨a, b, m, hp, hb, hm⟩ | ⟨a, fault, hp, hf⟩ | hk
      · rw [steps_of_reference hn hp, List.mem_singleton] at hs
        subst hs
        exact .inl (List.mem_singleton.mp hx).symm
      · have hbc := base_mem_children hp hb
        rw [steps_of_access hn hp hb hm] at hs
        rcases List.mem_append.mp hs with hs | hs
        · exact ht.below_of_child hn hbc (ih hs)
        · rw [List.mem_singleton] at hs
          subst hs
          simp only [Step.reads, List.mem_cons, List.not_mem_nil, or_false] at hx
          rcases hx with rfl | rfl | rfl
          · exact ht.below_of_child hn (member_mem_children hp hm) (.refl t x)
          · exact .refl t x
          · exact ht.below_of_child hn hbc (.refl t x)
      · rw [steps_of_fault hn hp hf, List.mem_singleton] at hs
        subst hs
        cases hx
      · rw [steps_of_not_reference hn hk] at hs
        obtain ⟨c, hc, hs⟩ := List.mem_flatMap.mp hs
        exact ht.below_of_child hn hc (ih hs)

theorem below_of_mem_targets (ht : t.WellFormed) {s : Step} (hs : s ∈ steps S t depth id outer role)
    (hx : x ∈ s.targets) : t.Below id x :=
  below_of_mem_reads ht hs (s.targets_subset_reads hx)

/-- The walk over some children does the steps for them, if the walks below do. -/
theorem children_run {c : Context} {scope : ScopeId} {ρ : NodeId → Role} (ht : t.WellFormed)
    (hn : t.get? owner = some n)
    (ih : ∀ d p m, d ∈ n.children → t.get? d = some m →
      (∀ x m, t.Below d x → t.get? x = some m → p.tree.get? x = some m) →
      (visit c depth d scope (ρ d)).run p = runSteps (exec c) (steps c.scopes t depth d scope (ρ d)) p)
    {ds : List NodeId} (hds : ds.Sublist n.children) {p : Progress}
    (hp : ∀ d ∈ ds, ∀ x m, t.Below d x → t.get? x = some m → p.tree.get? x = some m) :
    (ds.forM fun d => visit c depth d scope (ρ d)).run p =
      runSteps (exec c) (ds.flatMap fun d => steps c.scopes t depth d scope (ρ d)) p := by
  induction ds generalizing p with
  | nil => rfl
  | cons d ds ih' =>
    rw [List.forM_eq_forM] at ih' ⊢
    have hd : d ∈ n.children := hds.subset (by simp)
    obtain ⟨m, hm, -⟩ := ht.parent_of_child hn hd
    rw [List.forM_cons, List.flatMap_cons, EStateM.run_bind, ih d p m hd hm (hp d (by simp)),
      runSteps_append]
    cases hrun : runSteps (exec c) (steps c.scopes t depth d scope (ρ d)) p with
    | error e p₁ => rfl
    | ok _ p₁ =>
      refine ih' ((List.sublist_cons_self d ds).trans hds) ?_
      intro d' hd' x k hx hk
      have hne : d ≠ d' := by
        have hnodup := (ht.nodup_children hn).sublist hds
        exact fun he => (List.nodup_cons.mp hnodup).1 (he ▸ hd')
      have hd'n := hds.subset (List.mem_cons_of_mem _ hd')
      have hno : ∀ s ∈ steps c.scopes t depth d scope (ρ d), x ∉ s.targets :=
        fun s hs hmem => hne (ht.eq_of_below hn hd hd'n (below_of_mem_targets ht hs hmem) hx)
      have hkept := runSteps_kept (c := c) hno (hp d' (List.mem_cons_of_mem _ hd') x k hx hk)
      rwa [hrun] at hkept

theorem accessParts_run_of_parts {a : Access} {k : Node} {p : Progress} (id : NodeId) (region : Option Region)
    (hb : a.base = some base) (hm : a.member = some member) (hk : p.tree.get? member = some k)
    (hkind : k.kind = .reference) : (accessParts id region a).run p = .ok (base, member) p := by
  simp only [accessParts, hb, hm]
  rw [run_bind_ok (fetch_run hk), if_pos hkind]
  rfl

theorem accessParts_run_of_fault {a : Access} {fault : Fault} (id : NodeId) (region : Option Region) (p : Progress)
    (hf : a.fault? = some fault) : (accessParts id region a).run p = .error (.malformed id region fault) p := by
  rcases Access.fault?_eq_some_iff.mp hf with ⟨hb, rfl⟩ | ⟨⟨b, hb⟩, hm, rfl⟩
  · simp only [accessParts, hb]
    rfl
  · simp only [accessParts, hb, hm]
    rfl

/-- Anything but a reference is walked over child by child. -/
theorem visit_of_not_reference {c : Context} {p : Progress} {languages : Set String}
    (ht : t.ProperIn languages) (hn : t.get? id = some n) (hk : n.kind.isReference = false)
    (hn' : p.tree.get? id = some n) :
    (visit c (depth + 1) id outer role).run p =
      (n.children.forM fun d =>
        visit c depth d ((c.scopes.scopeOf? id).getD outer) (n.payload.roleOf d)).run p := by
  have hnodup := ht.nodup_children hn
  have hcallee := fun arguments => @ProperIn.callee _ _ ht _ _ arguments hn
  rw [visit, run_bind_ok (fetch_run hn')]
  dsimp only
  obtain ⟨_, _, _, _, payload⟩ := n
  cases payload with
  | call callee arguments =>
    cases callee with
    | none => exact absurd rfl (hcallee arguments)
    | some callee =>
      have hargs : ∀ a ∈ arguments, (Payload.call (some callee) arguments).roleOf a = .value := by
        intro a ha
        have hne : callee ∉ arguments := (List.nodup_cons.mp hnodup).1
        rw [Payload.roleOf, if_neg]
        rintro ⟨⟩
        exact hne ha
      have hself : (Payload.call (some callee) arguments).roleOf callee = .callee := if_pos rfl
      simp only [Node.children, Payload.children, Option.toList_some, List.singleton_append,
        List.forM_eq_forM, List.forM_cons, hself]
      congr 2
      funext _
      exact forM_eq_of_eq fun a ha => by rw [hargs a ha]
  | reference | member => cases hk
  | _ => rfl

/-- A walk of sufficient depth does the steps of its node, if nothing at or below it has changed. -/
theorem visit_run {c : Context} {p : Progress} {languages : Set String}
    (ht : t.ProperIn languages) (hn : t.get? id = some n)
    (hdepth : t.size < depth + (t.ancestors id).length)
    (hp : ∀ x m, t.Below id x → t.get? x = some m → p.tree.get? x = some m) :
    (visit c depth id outer role).run p =
      runSteps (exec c) (steps c.scopes t depth id outer role) p := by
  have hwf := ht.toWellFormed
  induction depth generalizing id n outer role p with
  | zero =>
    have := hwf.length_ancestors_lt hn
    omega
  | succ depth ih =>
    have hn' := hp id n (.refl t id) hn
    have hdeeper : ∀ {d}, d ∈ n.children → t.size < depth + (t.ancestors d).length := by
      intro d hd
      rw [hwf.ancestors_of_child hn hd, List.length_cons]
      omega
    rcases node_cases n with ⟨r, hpay⟩ | ⟨a, b, m, hpay, hb, hm⟩ | ⟨a, fault, hpay, hf⟩ | hk
    · rw [steps_of_reference hn hpay, runSteps_singleton, visit, run_bind_ok (fetch_run hn')]
      simp only [hpay]
      rfl
    · obtain ⟨k, r, hk, hkp, -⟩ := ht.half hn hpay hm
      have hbc := base_mem_children hpay hb
      obtain ⟨bn, hbn, -⟩ := hwf.parent_of_child hn hbc
      have hk' := hp m k (hwf.below_of_child hn (member_mem_children hpay hm) (.refl t m)) hk
      have hparts := accessParts_run_of_parts id n.region hb hm hk' (congrArg Payload.kind hkp)
      rw [steps_of_access hn hpay hb hm, visit, run_bind_ok (fetch_run hn')]
      simp only [hpay]
      rw [run_bind_ok hparts, runSteps_append, EStateM.run_bind,
        ih hbn (hdeeper hbc) fun x m hx hm => hp x m (hwf.below_of_child hn hbc hx) hm]
      cases hrun : runSteps (exec c)
          (steps c.scopes t depth b ((c.scopes.scopeOf? id).getD outer) .value) p with
      | error e p₁ => rfl
      | ok _ p₁ => exact (runSteps_singleton ..).symm
    · rw [steps_of_fault hn hpay hf, runSteps_singleton, visit, run_bind_ok (fetch_run hn')]
      simp only [hpay]
      rw [run_bind_error (accessParts_run_of_fault id n.region p hf)]
      rfl
    · rw [steps_of_not_reference hn hk, visit_of_not_reference ht hn hk hn']
      refine children_run hwf hn ?_ (List.Sublist.refl _) ?_
      · intro d q m hd hm hq
        exact ih hm (hdeeper hd) hq
      · exact fun d hd x m hx hm => hp x m (hwf.below_of_child hn hd hx) hm

end

/-- The step stands where the tree says it should. -/
inductive Placed (S : ScopeTree) (t : Tree) : Step → Prop
  | name {id n r scope} (node : t.get? id = some n) (payload : n.payload = .reference r)
      (plain : ¬ t.IsMemberHalf id) (inner : t.enclosingScope? S id = some scope) :
      Placed S t (.name id scope (t.roleOf id))
  | access {id n a base member scope} (node : t.get? id = some n) (payload : n.payload = .member a)
      (hasBase : a.base = some base) (hasMember : a.member = some member)
      (inner : t.enclosingScope? S id = some scope) :
      Placed S t (.access id base member scope (t.roleOf id))
  | fail (e : ResolveError) : Placed S t (.fail e)

section
variable {languages : Set String} {S : ScopeTree} {t : Tree} {id x base member : NodeId} {n : Node} {outer : ScopeId}
  {role : Role} {depth : Nat}

theorem roleOf_of_child (ht : t.WellFormed) (hn : t.get? id = some n) (hx : x ∈ n.children) :
    t.roleOf x = n.payload.roleOf x := by
  obtain ⟨k, hk, hparent⟩ := ht.parent_of_child hn hx
  simp only [Tree.roleOf, hk, Option.bind_some, hparent, hn]

theorem roleOf_of_becomes {p q : Payload} (h : p.Becomes q) (x : NodeId) : q.roleOf x = p.roleOf x := by
  cases h with
  | rebound h =>
    cases p <;> cases q <;> simp_all [Payload.SameForm, Payload.bind, Payload.roleOf]
  | filled => rfl
  | writtenOut => rfl

/-- What a node is used for does not change. -/
theorem roleOf_of_extends {t' : Tree} (h : t.Extends t') (ht : t.WellFormed) (hn : t.get? id = some n) :
    t'.roleOf id = t.roleOf id := by
  obtain ⟨n', hn', hb⟩ := h.node hn
  simp only [Tree.roleOf, hn, hn', Option.bind_some, hb.parent]
  cases hp : n.parent with
  | none => rfl
  | some p =>
    obtain ⟨k, hk, -⟩ := ht.child_of_parent hn hp
    obtain ⟨k', hk', hb'⟩ := h.node hk
    simp only [Option.bind_some, hk, hk']
    exact roleOf_of_becomes hb'.payload id

/-- Only a child of an access can be a member half. -/
theorem not_isMemberHalf_of_child (ht : t.ProperIn languages) (hn : t.get? id = some n)
    (hx : x ∈ n.children) (hno : ∀ a, n.payload = .member a → a.member ≠ some x) : ¬ t.IsMemberHalf x := by
  intro hhalf
  obtain ⟨e, k, a, m, hk, hka, ham, hm, hparent⟩ := ht.parent_of_isMemberHalf hhalf
  obtain ⟨m', hm', hparent'⟩ := ht.parent_of_child hn hx
  rw [hm] at hm'
  cases hm'
  rw [hparent] at hparent'
  cases hparent'
  rw [hn] at hk
  cases hk
  exact hno a hka ham

theorem base_ne_member {a : Access} (ht : t.WellFormed) (hn : t.get? id = some n)
    (hp : n.payload = .member a) (hb : a.base = some base) (hm : a.member = some member) :
    base ≠ member := by
  have hnodup := ht.nodup_children hn
  simp only [Node.children, hp, Payload.children, hb, hm, Option.toList_some, List.singleton_append,
    List.nodup_cons, List.mem_singleton] at hnodup
  exact hnodup.1

theorem base_not_half {a : Access} (ht : t.ProperIn languages) (hn : t.get? id = some n)
    (hp : n.payload = .member a) (hb : a.base = some base) (hm : a.member = some member) :
    ¬ t.IsMemberHalf base := by
  refine not_isMemberHalf_of_child ht hn (base_mem_children hp hb) ?_
  intro a' hp' hm'
  rw [hp] at hp'
  cases hp'
  rw [hm] at hm'
  exact base_ne_member ht.toWellFormed hn hp hb hm (Option.some.inj hm').symm

theorem placed_of_mem_steps (ht : t.ProperIn languages)
    (hS : ∀ {x n}, t.get? x = some n → n.kind.isReference = true → S.scopeOf? x = none)
    (hscope : (S.scopeOf? id).or (t.enclosingScope? S id) = some ((S.scopeOf? id).getD outer))
    (hrole : role = t.roleOf id) (hhalf : ¬ t.IsMemberHalf id) {s : Step}
    (hs : s ∈ steps S t depth id outer role) : Placed S t s := by
  have hwf := ht.toWellFormed
  induction depth generalizing id outer role with
  | zero => cases hs
  | succ depth ih =>
    cases hn : t.get? id with
    | none => simp [steps, hn] at hs
    | some n =>
      -- The scope around the children of the node.
      have hchild : ∀ {d}, d ∈ n.children → t.enclosingScope? S d = some ((S.scopeOf? id).getD outer) :=
        fun hd => (hwf.enclosingScope?_of_child hn hd S).trans hscope
      have hbelow : ∀ {d}, d ∈ n.children →
          (S.scopeOf? d).or (t.enclosingScope? S d) =
            some ((S.scopeOf? d).getD ((S.scopeOf? id).getD outer)) := by
        intro d hd
        rw [hchild hd]
        cases S.scopeOf? d <;> rfl
      rcases node_cases n with ⟨r, hp⟩ | ⟨a, b, m, hp, hb, hm⟩ | ⟨a, fault, hp, hf⟩ | hk
      · rw [steps_of_reference hn hp, List.mem_singleton] at hs
        have hnone := hS hn (by rw [Node.kind, hp]; rfl)
        rw [hs, hrole]
        refine .name hn hp hhalf ?_
        simpa [hnone] using hscope
      · have hnone := hS hn (by rw [Node.kind, hp]; rfl)
        have hbc := base_mem_children hp hb
        rw [steps_of_access hn hp hb hm] at hs
        rcases List.mem_append.mp hs with hs | hs
        · refine ih (hbelow hbc) ?_ (base_not_half ht hn hp hb hm) hs
          rw [roleOf_of_child hwf hn hbc, hp]
          rfl
        · rw [List.mem_singleton] at hs
          rw [hs, hrole]
          refine .access hn hp hb hm ?_
          simpa [hnone] using hscope
      · rw [steps_of_fault hn hp hf, List.mem_singleton] at hs
        rw [hs]
        exact .fail _
      · rw [steps_of_not_reference hn hk] at hs
        obtain ⟨d, hd, hs⟩ := List.mem_flatMap.mp hs
        refine ih (hbelow hd) (roleOf_of_child hwf hn hd).symm ?_ hs
        refine not_isMemberHalf_of_child ht hn hd fun a hp _ => ?_
        rw [Node.kind, hp] at hk
        cases hk

/-- Nothing that a step depends on is bound by a later step. -/
theorem steps_pairwise (ht : t.WellFormed) :
    (steps S t depth id outer role).Pairwise fun s s' => ∀ x ∈ s'.targets, x ∉ s.reads := by
  induction depth generalizing id outer role with
  | zero => exact .nil
  | succ depth ih =>
    cases hn : t.get? id with
    | none => simp [steps, hn]
    | some n =>
      rcases node_cases n with ⟨r, hp⟩ | ⟨a, b, m, hp, hb, hm⟩ | ⟨a, fault, hp, hf⟩ | hk
      · rw [steps_of_reference hn hp]
        exact List.pairwise_singleton ..
      · rw [steps_of_access hn hp hb hm]
        have hbc := base_mem_children hp hb
        refine List.pairwise_append.mpr ⟨ih, List.pairwise_singleton .., ?_⟩
        intro s hs s' hs' x hx hread
        rw [List.mem_singleton] at hs'
        subst hs'
        have hbelow := below_of_mem_reads ht hs hread
        simp only [Step.targets, List.mem_cons, List.not_mem_nil, or_false] at hx
        rcases hx with rfl | rfl
        · exact base_ne_member ht hn hp hb hm
            (ht.eq_of_below hn hbc (member_mem_children hp hm) hbelow (.refl t x))
        · exact ht.not_below_of_child hn hbc hbelow
      · rw [steps_of_fault hn hp hf]
        exact List.pairwise_singleton ..
      · rw [steps_of_not_reference hn hk]
        refine List.pairwise_flatMap.mpr ⟨fun d _ => ih, ?_⟩
        refine (ht.nodup_children hn).imp_of_mem ?_
        intro d d' hd hd' hne s hs s' hs' x hx hread
        exact hne (ht.eq_of_below hn hd hd' (below_of_mem_reads ht hs hread)
          (below_of_mem_targets ht hs' hx))

/-- What a step binds was not depended on before. -/
theorem not_mem_reads {done rest : List Step} {s : Step}
    (h : (done ++ s :: rest).Pairwise fun s s' => ∀ x ∈ s'.targets, x ∉ s.reads) :
    ∀ s' ∈ done, ∀ x ∈ s.targets, x ∉ s'.reads :=
  fun s' hs' => (List.pairwise_append.mp h).2.2 s' hs' s (by simp)

/-- Every reference has its step, unless the walk fails. -/
theorem exists_step (ht : t.ProperIn languages) (hdepth : t.size < depth + (t.ancestors id).length)
    (hhalf : ¬ t.IsMemberHalf x) {k : Node} (hx : t.get? x = some k) (hk : k.kind.isReference = true)
    (hbelow : t.Below id x) (hfail : ∀ e, Step.fail e ∉ steps S t depth id outer role) :
    ∃ s ∈ steps S t depth id outer role, s.node? = some x := by
  have hwf := ht.toWellFormed
  induction depth generalizing id outer role with
  | zero =>
    have hex : ∃ n, t.get? id = some n := by
      rcases hbelow with rfl | hmem
      · exact ⟨k, hx⟩
      · exact hwf.exists_of_mem_ancestors hmem
    obtain ⟨n, hn⟩ := hex
    have := hwf.length_ancestors_lt hn
    omega
  | succ depth ih =>
    obtain ⟨n, hn⟩ : ∃ n, t.get? id = some n := by
      rcases hbelow with rfl | hmem
      · exact ⟨k, hx⟩
      · exact hwf.exists_of_mem_ancestors hmem
    have hdeeper : ∀ {d}, d ∈ n.children → t.size < depth + (t.ancestors d).length := by
      intro d hd
      rw [hwf.ancestors_of_child hn hd, List.length_cons]
      omega
    rcases node_cases n with ⟨r, hp⟩ | ⟨a, b, m, hp, hb, hm⟩ | ⟨a, fault, hp, hf⟩ | hkn
    · rw [steps_of_reference hn hp]
      rcases hbelow with rfl | hmem
      · exact ⟨_, List.mem_singleton.mpr rfl, rfl⟩
      · obtain ⟨d, hd, -⟩ := hwf.exists_child_below hn hmem
        simp [Node.children, hp, Payload.children] at hd
    · rw [steps_of_access hn hp hb hm] at hfail ⊢
      rcases hbelow with rfl | hmem
      · exact ⟨_, List.mem_append_right _ (List.mem_singleton.mpr rfl), rfl⟩
      · obtain ⟨d, hd, hdx⟩ := hwf.exists_child_below hn hmem
        have hd' : d = b ∨ d = m := by
          simpa [Node.children, hp, Payload.children, hb, hm] using hd
        rcases hd' with rfl | rfl
        · obtain ⟨s, hs, hnode⟩ := ih (hdeeper hd) hdx fun e he => hfail e (List.mem_append_left _ he)
          exact ⟨s, List.mem_append_left _ hs, hnode⟩
        · -- Nothing stands below a member half.
          obtain ⟨y, r, hy, hyr, -⟩ := ht.half hn hp hm
          rcases hdx with rfl | hmem'
          · exact absurd ⟨id, n, a, hn, hp, hm⟩ hhalf
          · obtain ⟨z, hz, -⟩ := hwf.exists_child_below hy hmem'
            simp [Node.children, hyr, Payload.children] at hz
    · exact absurd (steps_of_fault hn hp hf ▸ List.mem_singleton.mpr rfl) (hfail _)
    · rw [steps_of_not_reference hn hkn] at hfail ⊢
      rcases hbelow with rfl | hmem
      · rw [hx] at hn
        cases hn
        rw [hkn] at hk
        cases hk
      · obtain ⟨d, hd, hdx⟩ := hwf.exists_child_below hn hmem
        obtain ⟨s, hs, hnode⟩ := ih (hdeeper hd) hdx
          fun e he => hfail e (List.mem_flatMap.mpr ⟨d, hd, he⟩)
        exact ⟨s, List.mem_flatMap.mpr ⟨d, hd, hs⟩, hnode⟩

end

end Binding
end NameResolution
