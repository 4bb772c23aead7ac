import NameResolution.Proofs.Accounting
import NameResolution.Proofs.Binding.Receiver

/-!
# Bindings are computed anew

What a pass binds a reference to follows from the scopes that the pass has registered, from its policy and from where the
reference stands. What earlier passes have bound the references to does not come into it: all that a pass takes over
from them are the names that they have written out.
-/
namespace NameResolution
open NameResolution.Tree ScopeTree

/-- What a pass over `t` that leaves `T` behind makes of the reference `x`. A member half goes with its access. -/
inductive Computed (c : Binding.Context) (t T : Tree) (x : NodeId) : Resolution → Prop
  /-- A plain name is bound to what it denotes, also where it is written out now. -/
  | lexical {id : NodeId} {k n : Node} {r : Resolution} (at_ : T.reportedAs x = id) (before : t.get? id = some k)
      (name : k.kind = .reference) (plain : ¬ t.IsMemberHalf id) (now : T.get? id = some n)
      (denotes : Denotes T c.scopes c.policy (T.roleOf id) n.name (T.enclosingScopes c.scopes id) r) :
      Computed c t T x r
  /-- The base that it is written out with is bound to the receiver for the record that declares the field. -/
  | receiver {id inner field f : NodeId} {k n : Node} {a : Access} {s : ScopeId} {sc : Scope}
      (before : t.get? id = some k) (name : k.kind = .reference) (now : T.get? id = some n)
      (payload : n.payload = .member a) (isBase : a.base = some x) (bound : a.resolution = .single f)
      (declared : f ∈ c.scopes.lookup s n.name) (scope : c.scopes.get? s = some sc)
      (receiver : Binding.Receiver T c.scopes id sc.owner inner field) : Computed c t T x (.single field)
  /-- An access is bound to what the record that its base denotes declares under its name, if the base denotes one. -/
  | member {id base : NodeId} {k n : Node} {a : Access} {around : ScopeId} (at_ : T.reportedAs x = id)
      (before : t.get? id = some k) (access : k.kind = .member) (now : T.get? id = some n)
      (payload : n.payload = .member a) (hasBase : a.base = some base)
      (inner : T.enclosingScope? c.scopes id = some around) :
      Computed c t T x (Binding.memberOf c T (Binding.recordOfBase? c T base around) n.name (T.roleOf id))

namespace Tree.Pass
variable {config : Config} {t t' T : Tree} {u : ResolvedUnit} {x id : NodeId} {k n m : Node} {r r' ρ : Resolution}
  {scope : ScopeId}

/-- What a pass finds in the place of a plain name was a plain name before. -/
theorem name_before (h : Pass config t t' T u) (node : t'.get? id = some m) (payload : m.payload = .reference ρ)
    (plain : ¬ t'.IsMemberHalf id) : t.get? id = some m ∧ m.kind = .reference ∧ ¬ t.IsMemberHalf id := by
  have hkind : m.kind = .reference := by
    rw [Node.kind, payload]
    rfl
  refine ⟨h.get?_of_reference node (by rw [hkind]; rfl), hkind, fun hhalf => plain ?_⟩
  exact h.walked.toExtends.isMemberHalf_of hhalf

/-- A plain name stays one, or is written out, and an access stays one, so that neither becomes a member half. -/
theorem not_half_of_name (h : Pass config t t' T u) (before : t.get? id = some k) (plain : ¬ t.IsMemberHalf id) :
    ¬ T.IsMemberHalf id :=
  fun hhalf => plain (h.toExtends.isMemberHalf h.proper.toWellFormed h.bound.proper before hhalf)

/-- What a name is bound to by its level is what it denotes in the end. -/
theorem denotes_lexical (h : Pass config t t' T u) (node : t'.get? id = some m)
    (inner : t'.enclosingScope? u.scopes id = some scope) :
    Denotes T u.scopes config.ambiguity (T.roleOf id) m.name (T.enclosingScopes u.scopes id)
      (Binding.lexical (u.context config) t' m.name scope (t'.roleOf id)) := by
  have hwf := h.walked.proper.toWellFormed
  rw [Binding.roleOf_of_extends h.bound.toExtends hwf node]
  refine (Binding.denotes_iff (c := u.context config) h.registered_end h.bound.proper.toWellFormed
    ((h.enclosingScope?_eq node).trans inner)).mpr ?_
  exact Binding.lexical_congr (c := u.context config) h.walked.grounded h.bound.same ..

/-- A pass binds every reference to what it makes of it. -/
theorem computed (h : Pass config t t' T u) (hr : T.resolution? x = some r) :
    Computed (u.context config) t T x r := by
  have hwf := h.walked.proper.toWellFormed
  have hT := h.bound.proper
  cases h.boundAs hr with
  | name node payload plain inner now =>
    obtain ⟨before, isName, plain⟩ := h.name_before node payload plain
    have hdenotes := h.denotes_lexical node inner
    exact .lexical (reportedAs_of_plain hT (h.not_half_of_name before plain)) before isName plain now hdenotes
  | @field id m _ w base member scope node payload plain inner isWritten now memberNow at_ =>
    obtain ⟨before, isName, plain⟩ := h.name_before node payload plain
    have hdenotes := h.denotes_lexical node inner
    rw [Binding.lexical_of_written isWritten] at hdenotes
    have hat : T.reportedAs x = id := by
      rcases at_ with rfl | rfl
      · exact reportedAs_of_plain hT (h.not_half_of_name before plain)
      · exact reportedAs_of_half hT now rfl rfl
    exact .lexical hat before isName plain now hdenotes
  | receiver node payload plain inner isWritten now baseNow =>
    obtain ⟨before, isName, -⟩ := h.name_before node payload plain
    obtain ⟨s, sc, _, _, hscope, hdeclared, -, -, hreceiver⟩ :=
      Binding.receiver_of_written (c := u.context config) h.registered.registered hwf inner isWritten
    exact .receiver before isName now rfl rfl rfl hdeclared hscope
      (hreceiver.mono hwf node h.bound.toExtends h.bound.same)
  | @access id m a base member scope _ k node payload hasBase hasMember inner now halfNow named resolution at_ =>
    have hkind : m.kind = .member := by
      rw [Node.kind, payload]
      rfl
    have before := h.get?_of_reference node (by rw [hkind]; rfl)
    have hat : T.reportedAs x = id := by
      rcases at_ with rfl | rfl
      · exact reportedAs_of_plain hT (hT.not_isMemberHalf_of_member now rfl)
      · exact reportedAs_of_half hT now rfl hasMember
    have hinner := (h.enclosingScope?_eq node).trans inner
    rw [← Binding.memberOf_congr (c := u.context config) h.walked.grounded h.bound.same,
      ← Binding.roleOf_of_extends h.bound.toExtends hwf node] at resolution
    have hmember := Computed.member (c := u.context config) hat before hkind now rfl hasBase hinner
    exact resolution ▸ hmember

/-- The base that a name is written out with stands for itself, and is new. -/
theorem base_is_new (h : Pass config t t' T u) {a : Access} (before : t.get? id = some k) (name : k.kind = .reference)
    (now : T.get? id = some n) (payload : n.payload = .member a) (isBase : a.base = some x) :
    t.get? (T.reportedAs x) = none := by
  have hT := h.bound.proper
  have hchild := Binding.base_mem_children payload isBase
  have hplain : ¬ T.IsMemberHalf x := by
    refine Binding.not_isMemberHalf_of_child hT now hchild fun a' hp' hm' => ?_
    rw [payload] at hp'
    cases hp'
    exact Binding.base_ne_member hT.toWellFormed now payload isBase hm' rfl
  rw [reportedAs_of_plain hT hplain]
  by_contra hold
  obtain ⟨m, hm⟩ := Option.ne_none_iff_exists'.mp hold
  obtain ⟨m', hm', hb⟩ := h.toExtends.node hm
  obtain ⟨m'', hm'', hparent⟩ := hT.parent_of_child now hchild
  rw [hm'] at hm''
  cases hm''
  -- Its parent would have been a name, below which nothing stands.
  obtain ⟨k', hk', hbelow⟩ := h.proper.child_of_parent hm (hb.parent ▸ hparent)
  rw [before] at hk'
  cases hk'
  obtain ⟨_, _, _, _, p⟩ := k
  cases p with
  | reference r => cases hbelow
  | _ => cases name

/-- So it does not stand for any node that was there before. -/
theorem reportedAs_ne_of_base (h : Pass config t t' T u) {a : Access} (before : t.get? id = some k)
    (name : k.kind = .reference) (now : T.get? id = some n) (payload : n.payload = .member a) (isBase : a.base = some x)
    {y : NodeId} (old : t.get? y = some m) : T.reportedAs x ≠ y := by
  rintro rfl
  rw [h.base_is_new before name now payload isBase] at old
  cases old

end Tree.Pass

/-- There is one resolution that a pass can come to for a reference. -/
theorem Computed.unique {config : Config} {t t' T : Tree} {u : ResolvedUnit} {x : NodeId} {r r' : Resolution}
    (h : Pass config t t' T u) (hr : Computed (u.context config) t T x r) (hr' : Computed (u.context config) t T x r') :
    r = r' := by
  have hT := h.bound.proper.toWellFormed
  cases hr with
  | lexical at_ before name plain now denotes =>
    cases hr' with
    | lexical at' before' name' plain' now' denotes' =>
      cases at_.symm.trans at'
      rw [now] at now'
      cases now'
      exact denotes.unique denotes'
    | receiver before' name' now' payload' isBase' =>
      exact absurd at_ (h.reportedAs_ne_of_base before' name' now' payload' isBase' before)
    | member at' before' access' =>
      cases at_.symm.trans at'
      rw [before] at before'
      cases before'
      rw [name] at access'
      cases access'
  | receiver before name now payload isBase bound declared scope receiver =>
    cases hr' with
    | lexical at' before' | member at' before' =>
      exact absurd at' (h.reportedAs_ne_of_base before name now payload isBase before')
    | receiver before' name' now' payload' isBase' bound' declared' scope' receiver' =>
      cases hT.eq_of_child now (Binding.base_mem_children payload isBase) now'
        (Binding.base_mem_children payload' isBase')
      rw [now] at now'
      cases now'
      rw [payload] at payload'
      cases payload'
      rw [bound] at bound'
      cases bound'
      obtain ⟨rfl, -⟩ := h.registered_end.lookup_unique declared declared'
      rw [scope] at scope'
      cases scope'
      rw [(receiver.unique (c := u.context config) hT h.registered_end receiver').2]
  | member at_ before access now payload hasBase inner =>
    cases hr' with
    | lexical at' before' name' =>
      cases at_.symm.trans at'
      rw [before] at before'
      cases before'
      rw [name'] at access
      cases access
    | receiver before' name' now' payload' isBase' =>
      exact absurd at_ (h.reportedAs_ne_of_base before' name' now' payload' isBase' before)
    | member at' before' access' now' payload' hasBase' inner' =>
      cases at_.symm.trans at'
      rw [now] at now'
      cases now'
      rw [payload] at payload'
      cases payload'
      rw [hasBase] at hasBase'
      cases hasBase'
      rw [inner] at inner'
      cases inner'
      rfl

end NameResolution
