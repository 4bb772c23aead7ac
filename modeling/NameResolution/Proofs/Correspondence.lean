import NameResolution.Proofs.Accounting
import NameResolution.Proofs.Binding.Matching
import NameResolution.Proofs.Registration.Correspondence
import NameResolution.Proofs.Size

/-!
# Passes over trees that match

Binding takes registered trees that match to trees that match: each name is bound alike or written out in both, and
each access is bound alike once its base is. The numbering goes on to the two names below each name that is written
out. Both passes count the same.
-/
namespace NameResolution
open Registration

/-- Nodes that match still do when they come to hold what matches. -/
theorem Node.Matches.holding {g k : NodeId → NodeId} {n n' : Node} {p p' : Payload} (h : n.Matches g n')
    (hid : k n.id = g n.id) (hparent : n.parent.map k = n.parent.map g) (hp : p.Matches k p') :
    ({ n with payload := p } : Node).Matches k { n' with payload := p' } where
  id := h.id.trans hid.symm
  name := h.name
  region := h.region
  parent := h.parent.trans hparent.symm
  payload := hp

namespace Tree
open Binding ScopeTree

variable {languages : Set String} {config : Config} {s t T s' t' T' : Tree} {u u' : ResolvedUnit}
  {g k : NodeId → NodeId} {σ : ScopeId → ScopeId} {x y e : NodeId} {n n' m : Node} {r : Resolution} {a : Access}
  {w : ImplicitAccess} {base member : NodeId}

namespace PassIn

/-- The member half of an access ends up bound like the access. -/
theorem exists_half (h : PassIn languages config s t T u) (hn : t.get? e = some n) (hp : n.payload = .member a)
    (hx : a.member = some x) (hm : t.get? x = some m) :
    ∃ ρ, T.get? x = some { m with payload := .reference ρ } ∧ T.resolution? e = some ρ := by
  obtain ⟨base, member, scope, ρ, -, hmember, -, hnow, hhalf, -⟩ := h.exists_access hn hp
  rw [hx] at hmember
  cases hmember
  obtain ⟨m', hm', hb⟩ := h.bound.toExtends.node hm
  obtain ⟨k, ρ', hk, hρ', -⟩ := h.bound.proper.half hnow rfl hx
  rw [hm'] at hk
  cases hk
  rw [resolution?, hm', Option.bind_some, hρ', Payload.resolution?, Option.some.injEq] at hhalf
  subst hhalf
  refine ⟨ρ', ?_, resolution?_of_get? hnow rfl⟩
  obtain ⟨_, _, _, _, payload'⟩ := m'
  obtain ⟨rfl, rfl, rfl, rfl, -⟩ := hb
  obtain rfl : payload' = .reference ρ' := hρ'
  exact hm'

theorem growsBelow (h : PassIn languages config s t T u) : t.GrowsBelow T := by
  refine ⟨h.bound.toExtends, h.bound.proper.toWellFormed, fun hk hnew => ?_⟩
  obtain ⟨id, scope, role, hs, hparent⟩ := h.bound.new hk hnew
  have hplaced := h.placed _ hs
  cases hplaced with
  | name node => exact ⟨id, _, hparent, node⟩

/-- Nothing comes below a node that lists what it listed. -/
theorem newBelow_of_children (h : PassIn languages config s t T u) (hn : t.get? x = some n) (hm : T.get? x = some m)
    (hchildren : m.children = n.children) : t.newBelow T x = [] := by
  refine newBelow_eq_nil hm fun y hy => ?_
  obtain ⟨m, hm, -⟩ := h.walked.proper.parent_of_child hn (hchildren ▸ hy)
  exact ⟨m, hm⟩

end PassIn

/-- Between the two trees, the name `x` expands to the access `w`. -/
structure Expansion (t T : Tree) (x : NodeId) (n : Node) (w : ImplicitAccess) (base member : NodeId) : Prop where
  freshBase : t.get? base = none
  freshMember : t.get? member = none
  now : T.get? x = some { n with payload := .member ⟨some base, some member, true, .single w.field⟩ }
  baseNow : T.get? base = some ⟨base, w.name, n.region, some x, .reference (.single w.base)⟩
  memberNow : T.get? member = some ⟨member, n.name, n.region, some x, .reference (.single w.field)⟩

/-- The base and the member half come below a name that is written out. -/
theorem Expansion.newBelow_eq (h : Expansion t T x n w base member) : t.newBelow T x = [base, member] := by
  refine Tree.newBelow_eq h.now (List.nil_append _).symm (fun y hy => absurd hy List.not_mem_nil) fun y hy => ?_
  rcases List.mem_cons.mp hy with rfl | hy
  · exact h.freshBase
  · exact List.mem_singleton.mp hy ▸ h.freshMember

/-- Two passes whose registered trees match. -/
structure PassesMatch (config : Config) (g : NodeId → NodeId) (σ : ScopeId → ScopeId) (s t T s' t' T' : Tree)
    (u u' : ResolvedUnit) : Prop where
  here : Pass config s t T u
  there : Pass config s' t' T' u'
  contexts : ContextsMatch g σ t t' (u.context config) (u'.context config)
  closed : t.Closed

namespace PassesMatch

section
variable (h : PassesMatch config g σ s t T s' t' T' u u')
include h

theorem exists_scope {scope : ScopeId} (hscope : t.enclosingScope? u.scopes x = some scope)
    (hn : t.get? x = some n) :
    t'.enclosingScope? u'.scopes (g x) = some (σ scope) ∧ ∃ sc, u.scopes.get? scope = some sc := by
  refine ⟨?_, exists_of_lt_size (lt_size_of_enclosingScope? hscope)⟩
  have hmap := h.contexts.scopes.enclosingScope?_eq h.contexts.trees h.contexts.wellFormed hn
  rw [show t.enclosingScope? (u.context config).scopes x = some scope from hscope] at hmap
  exact hmap

/-- Names that match are bound alike, or written out to accesses that match. -/
theorem name_cases (hn : t.get? x = some n) (hn' : t'.get? (g x) = some n') (hp : n.payload = .reference r)
    (hplain : ¬ t.IsMemberHalf x) :
    (∃ ρ, T.get? x = some { n with payload := .reference ρ } ∧
      T'.get? (g x) = some { n' with payload := .reference (ρ.map g) }) ∨
    ∃ w base member base' member', Expansion t T x n w base member ∧
      Expansion t' T' (g x) n' (w.map g) base' member' := by
  have hwf := h.contexts.wellFormed
  have hm := h.contexts.trees.matches_of_get? hn hn'
  have hpayload := hm.payload
  rw [hp] at hpayload
  have hp' := hpayload.of_reference
  obtain ⟨scope, hscope, -, hsettled⟩ := h.here.exists_name hn hp hplain
  obtain ⟨scope', hscope', -, hsettled'⟩ := h.there.exists_name hn' hp'
    ((h.contexts.trees.isMemberHalf_iff hwf hn).not.mpr hplain)
  obtain ⟨hmap, sc, hsc⟩ := h.exists_scope hscope hn
  rw [hmap] at hscope'
  cases hscope'
  rw [h.contexts.trees.roleOf_eq hwf hn] at hsettled'
  have hwritten : written? (u'.context config) t' n'.name (σ scope) (t.roleOf x) =
      (written? (u.context config) t n.name scope (t.roleOf x)).map (ImplicitAccess.map g) :=
    hm.name ▸ h.contexts.written?_map hsc
  have hlexical : lexical (u'.context config) t' n'.name (σ scope) (t.roleOf x) =
      (lexical (u.context config) t n.name scope (t.roleOf x)).map g := hm.name ▸ h.contexts.lexical_map hsc
  cases hsettled with
  | bound node notWritten now =>
    rw [hn] at node
    cases node
    rw [notWritten, Option.map_none] at hwritten
    cases hsettled' with
    | bound node' _ now' =>
      rw [hn'] at node'
      cases node'
      exact .inl ⟨_, now, hlexical ▸ now'⟩
    | written node' isWritten' =>
      rw [hn'] at node'
      cases node'
      rw [hwritten] at isWritten'
      cases isWritten'
  | @written _ _ _ _ w base member node isWritten freshBase freshMember now baseNow memberNow =>
    rw [hn] at node
    cases node
    rw [isWritten, Option.map_some] at hwritten
    cases hsettled' with
    | bound node' notWritten' =>
      rw [hn'] at node'
      cases node'
      rw [hwritten] at notWritten'
      cases notWritten'
    | @written _ _ _ _ w' base' member' node' isWritten' freshBase' freshMember' now' baseNow' memberNow' =>
      rw [hn'] at node'
      cases node'
      rw [hwritten] at isWritten'
      cases isWritten'
      exact .inr ⟨w, base, member, base', member', ⟨freshBase, freshMember, now, baseNow, memberNow⟩,
        ⟨freshBase', freshMember', now', baseNow', memberNow'⟩⟩

/-- What comes below nodes that match are the parts of accesses that match. -/
theorem newBelow_cases (hn : t.get? x = some n) (hn' : t'.get? (g x) = some n') :
    t.newBelow T x = [] ∧ t'.newBelow T' (g x) = [] ∨
    ∃ w base member base' member', Expansion t T x n w base member ∧
      Expansion t' T' (g x) n' (w.map g) base' member' := by
  have hwf := h.contexts.wellFormed
  have hm := h.contexts.trees.matches_of_get? hn hn'
  have hnothing : ∀ {p p'}, T.get? x = some { n with payload := p } → T'.get? (g x) = some { n' with payload := p' } →
      p.children = n.children → p'.children = n'.children → t.newBelow T x = [] ∧ t'.newBelow T' (g x) = [] :=
    fun hm hm' hchildren hchildren' =>
      ⟨h.here.newBelow_of_children hn hm hchildren, h.there.newBelow_of_children hn' hm' hchildren'⟩
  by_cases hk : n.kind.isReference = true
  case neg =>
    rw [Bool.not_eq_true] at hk
    exact .inl (hnothing ((h.here.bound.same hk).mpr hn) ((h.there.bound.same (hm.kind_eq ▸ hk)).mpr hn') rfl rfl)
  obtain ⟨id, name, region, parent, payload⟩ := n
  obtain ⟨id', name', region', parent', payload'⟩ := n'
  have hpayload := hm.payload
  cases payload with
  | member a =>
    obtain rfl := hpayload.of_member
    obtain ⟨_, _, _, ρ, -, -, -, hnow, -⟩ := h.here.exists_access hn rfl
    obtain ⟨_, _, _, ρ', -, -, -, hnow', -⟩ := h.there.exists_access hn' rfl
    exact .inl (hnothing hnow hnow' rfl rfl)
  | reference r =>
    obtain rfl := hpayload.of_reference
    by_cases hhalf : t.IsMemberHalf x
    · obtain ⟨e', k', a', hk', hp', ha'⟩ := (h.contexts.trees.isMemberHalf_iff hwf hn).mpr hhalf
      obtain ⟨e, k, a, hk, hp, ha⟩ := hhalf
      obtain ⟨ρ, hnow, -⟩ := h.here.exists_half hk hp ha hn
      obtain ⟨ρ', hnow', -⟩ := h.there.exists_half hk' hp' ha' hn'
      exact .inl (hnothing hnow hnow' rfl rfl)
    · rcases h.name_cases hn hn' rfl hhalf with ⟨ρ, hnow, hnow'⟩ | hwritten
      · exact .inl (hnothing hnow hnow' rfl rfl)
      · exact .inr hwritten
  | _ => cases hk

/-- As much comes below nodes that match. -/
theorem length_newBelow (hn : t.get? x = some n) : (t.newBelow T x).length = (t'.newBelow T' (g x)).length := by
  obtain ⟨n', hn', -⟩ := h.contexts.trees.node hn
  rcases h.newBelow_cases hn hn' with ⟨hnone, hnone'⟩ | ⟨w, base, member, base', member', hw, hw'⟩
  · rw [hnone, hnone']
  · rw [hw.newBelow_eq, hw'.newBelow_eq]
    rfl

section
variable (hold : ∀ {x n}, t.get? x = some n → k x = g x)
include hold

/-- What a pass binds references to keeps its number. -/
theorem map_resolution (hr : T.resolution? x = some r) : r.map k = r.map g := by
  refine Resolution.map_congr fun d hd => ?_
  obtain ⟨m, hm⟩ := h.here.exists_of_mem_candidates hr hd
  exact hold hm

/-- Nodes that match still do when they come to hold what matches. -/
theorem holding {p p' : Payload} (hn : t.get? x = some n) (hn' : t'.get? (g x) = some n') (hp : p.Matches k p') :
    ({ n with payload := p } : Node).Matches k { n' with payload := p' } := by
  have hids : ∀ y ∈ n.ids, k y = g y := by
    intro y hy
    obtain ⟨m, hm⟩ := h.closed hn y hy
    exact hold hm
  refine (h.contexts.trees.matches_of_get? hn hn').holding (hids _ (List.mem_cons_self ..)) ?_ hp
  exact Option.map_congr fun y hy => hids y (by simp [Node.ids, Option.mem_def.mp hy])

theorem reference_matches {ρ : Resolution} (hn : t.get? x = some n) (hn' : t'.get? (g x) = some n')
    (hnow : T.get? x = some { n with payload := .reference ρ }) :
    ({ n with payload := .reference ρ } : Node).Matches k { n' with payload := .reference (ρ.map g) } := by
  rw [← h.map_resolution hold (resolution?_of_get? hnow rfl)]
  exact h.holding hold hn hn' (.same _)

/-- The accesses that names are written out to match, with their parts, if the parts do. -/
theorem expansion_matches {base' member' : NodeId} (hn : t.get? x = some n) (hn' : t'.get? (g x) = some n')
    (hw : Expansion t T x n w base member) (hw' : Expansion t' T' (g x) n' (w.map g) base' member')
    (hbase : k base = base') (hmember : k member = member') :
    ∀ y ∈ [x, base, member], ∃ m m', T.get? y = some m ∧ T'.get? (k y) = some m' ∧ m.Matches k m' := by
  subst hbase hmember
  have hm := h.contexts.trees.matches_of_get? hn hn'
  have hfield : k w.field = g w.field :=
    Resolution.single.inj (h.map_resolution hold (resolution?_of_get? hw.now rfl))
  have hreceiver : k w.base = g w.base :=
    Resolution.single.inj (h.map_resolution hold (resolution?_of_get? hw.baseNow rfl))
  have hx : k x = g x := hold hn
  intro y hy
  simp only [List.mem_cons, List.not_mem_nil, or_false] at hy
  rcases hy with rfl | rfl | rfl
  · refine ⟨_, _, hw.now, hx ▸ hw'.now, h.holding hold hn hn' ?_⟩
    rw [ImplicitAccess.map, ← hfield]
    exact .same (.member _)
  · refine ⟨_, _, hw.baseNow, hw'.baseNow, rfl, rfl, hm.region, congrArg some hx.symm, ?_⟩
    rw [ImplicitAccess.map, ← hreceiver]
    exact .same (.reference _)
  · refine ⟨_, _, hw.memberNow, hw'.memberNow, rfl, hm.name, hm.region, congrArg some hx.symm, ?_⟩
    rw [ImplicitAccess.map, ← hfield]
    exact .same (.reference _)

/-- An access is bound alike if its base is. -/
theorem access_matches (hn : t.get? x = some n) (hp : n.payload = .member a)
    (hbase : ∀ b ∈ n.children, ¬ t.IsMemberHalf b →
      ∃ m m', T.get? b = some m ∧ T'.get? (k b) = some m' ∧ m.Matches k m') :
    ∃ m m', T.get? x = some m ∧ T'.get? (k x) = some m' ∧ m.Matches k m' := by
  have hwf := h.contexts.wellFormed
  obtain ⟨n', hn', hm⟩ := h.contexts.trees.node hn
  have hpayload := hm.payload
  rw [hp] at hpayload
  have hp' := hpayload.of_member
  obtain ⟨base, member, scope, ρ, hb, hmember, hscope, hnow, -, hρ⟩ := h.here.exists_access hn hp
  obtain ⟨base', member', scope', ρ', hb', -, hscope', hnow', -, hρ'⟩ := h.there.exists_access hn' hp'
  obtain ⟨hmap, sc, hsc⟩ := h.exists_scope hscope hn
  rw [hmap] at hscope'
  cases hscope'
  have hchild := base_mem_children hp hb
  obtain ⟨b, hbn, -⟩ := hwf.parent_of_child hn hchild
  rw [Access.map, hb, Option.map_some, Option.some.injEq, ← hold hbn] at hb'
  subst hb'
  obtain ⟨b, b', hb, hb', hbm⟩ := hbase base hchild (base_not_half h.here.walked.proper hn hp hb hmember)
  have hrecord : recordOfBase? (u'.context config) T' (k base) (σ scope) =
      (recordOfBase? (u.context config) T base scope).map g := by
    refine h.contexts.recordOfBase?_map h.here.bound.same h.there.bound.same hsc hb hb' hbm.payload fun r hr d hd => ?_
    obtain ⟨m, hm⟩ := h.here.exists_of_mem_candidates (resolution?_of_get? hb hr) hd
    exact ⟨hold hm, m, hm⟩
  have hbound : ρ' = ρ.map k := by
    rw [h.map_resolution hold (resolution?_of_get? hnow rfl), hρ', hrecord, hm.name,
      h.contexts.trees.roleOf_eq hwf hn, hρ]
    refine h.contexts.memberOf_map fun d hd => ?_
    obtain ⟨m, hm, hk⟩ := Option.map_eq_some_iff.mp
      (kind?_of_recordOfBase? (t := T) (c := u.context config) h.here.registered_end hd)
    exact ⟨m, (h.here.bound.same (by rw [hk]; rfl)).mp hm⟩
  -- The parts of the access keep their numbers.
  have hparts : a.map g = a.map k := by
    refine Payload.member.inj (Payload.map_congr (p := .member a) fun y hy => ?_)
    obtain ⟨m, hm⟩ := h.closed hn y (by simp [Node.ids, hp, hy])
    exact (hold hm).symm
  refine ⟨_, _, hnow, hold hn ▸ hnow', h.holding hold hn hn' ?_⟩
  rw [hbound, hparts]
  exact .same (.member { a with resolution := ρ })

variable (hnew : ∀ {x n}, t.get? x = some n → (t.newBelow T x).map k = t'.newBelow T' (g x))
include hnew

/-- A name that is written out matches, and all that comes below it. -/
theorem written_matches {base' member' : NodeId} (hn : t.get? x = some n) (hn' : t'.get? (g x) = some n')
    (hw : Expansion t T x n w base member) (hw' : Expansion t' T' (g x) n' (w.map g) base' member') :
    ∀ y ∈ [x, base, member], ∃ m m', T.get? y = some m ∧ T'.get? (k y) = some m' ∧ m.Matches k m' := by
  have hparts := hnew hn
  rw [hw.newBelow_eq, hw'.newBelow_eq] at hparts
  obtain ⟨hbase, hmember⟩ : k base = base' ∧ k member = member' := by simpa using hparts
  exact h.expansion_matches hold hn hn' hw hw' hbase hmember

/-- All but member halves match. By induction on the tree, since an access waits for its base. -/
theorem plain_matches (hn : t.get? x = some n) (hplain : ¬ t.IsMemberHalf x) :
    ∃ m m', T.get? x = some m ∧ T'.get? (k x) = some m' ∧ m.Matches k m' := by
  have hproper := h.here.walked.proper
  revert hplain
  refine hproper.toWellFormed.induction_children (P := fun x => ¬ t.IsMemberHalf x →
    ∃ m m', T.get? x = some m ∧ T'.get? (k x) = some m' ∧ m.Matches k m') ?_ hn
  intro x n hn ih hplain
  obtain ⟨n', hn', hm⟩ := h.contexts.trees.node hn
  cases hk : n.kind.isReference with
  | false =>
    refine ⟨n, n', (h.here.bound.same hk).mpr hn, ?_, hm.congr fun y hy => ?_⟩
    · exact hold hn ▸ (h.there.bound.same (hm.kind_eq ▸ hk)).mpr hn'
    · obtain ⟨m, hm⟩ := h.closed hn y hy
      exact hold hm
  | true =>
    rcases Node.reference_or_member hk with ⟨r, hp⟩ | ⟨a, hp⟩
    · rcases h.name_cases hn hn' hp hplain with ⟨ρ, hnow, hnow'⟩ | ⟨w, base, member, base', member', hw, hw'⟩
      · exact ⟨_, _, hnow, hold hn ▸ hnow', h.reference_matches hold hn hn' hnow⟩
      · exact h.written_matches hold hnew hn hn' hw hw' x (by simp)
    · exact h.access_matches hold hn hp ih

/-- A member half matches since it is bound like its access. -/
theorem half_matches (hn : t.get? x = some n) (hhalf : t.IsMemberHalf x) :
    ∃ m m', T.get? x = some m ∧ T'.get? (k x) = some m' ∧ m.Matches k m' := by
  obtain ⟨n', hn', hm⟩ := h.contexts.trees.node hn
  obtain ⟨e, b, a, hb, hp, ha⟩ := hhalf
  obtain ⟨b', hb', hbm⟩ := h.contexts.trees.node hb
  have hpayload := hbm.payload
  rw [hp] at hpayload
  obtain ⟨ρ, hnow, hρ⟩ := h.here.exists_half hb hp ha hn
  obtain ⟨ρ', hnow', hρ'⟩ := h.there.exists_half hb' hpayload.of_member (by rw [Access.map, ha, Option.map_some]) hn'
  obtain ⟨m, m', hm, hm', hmatch⟩ :=
    h.plain_matches hold hnew hb (h.here.walked.proper.not_isMemberHalf_of_member hb hp)
  have hbound : ρ' = ρ.map k := by
    rw [← hold hb, resolution?, hm', Option.bind_some, hmatch.payload.resolution?_eq] at hρ'
    rw [resolution?, hm, Option.bind_some] at hρ
    rw [hρ, Option.map_some] at hρ'
    exact (Option.some.inj hρ').symm
  rw [hbound, h.map_resolution hold hρ] at hnow'
  exact ⟨_, _, hnow, hold hn ▸ hnow', h.reference_matches hold hn hn' hnow⟩

/-- What was there before binding still matches. -/
theorem old_matches (hn : t.get? x = some n) :
    ∃ m m', T.get? x = some m ∧ T'.get? (k x) = some m' ∧ m.Matches k m' := by
  by_cases hhalf : t.IsMemberHalf x
  · exact h.half_matches hold hnew hn hhalf
  · exact h.plain_matches hold hnew hn hhalf

/-- And so does what binding has added. -/
theorem new_matches (hn : t.get? x = some n) (hy : y ∈ t.newBelow T x) :
    ∃ m m', T.get? y = some m ∧ T'.get? (k y) = some m' ∧ m.Matches k m' := by
  obtain ⟨n', hn', -⟩ := h.contexts.trees.node hn
  rcases h.newBelow_cases hn hn' with ⟨hnone, -⟩ | ⟨w, base, member, base', member', hw, hw'⟩
  · rw [hnone] at hy
    cases hy
  · rw [hw.newBelow_eq] at hy
    exact h.written_matches hold hnew hn hn' hw hw' y (List.mem_cons_of_mem x hy)

end

/-- Binding leads to trees that match, and numbers only what it has added. -/
theorem exists_matches : ∃ k, (∀ {x n}, t.get? x = some n → k x = g x) ∧ T.Matches k T' := by
  refine h.contexts.trees.exists_grown h.contexts.wellFormed h.here.growsBelow h.there.growsBelow h.length_newBelow ?_
  rintro k hk x y n hn (rfl | hy)
  · exact h.old_matches hk.old hk.new hn
  · exact h.new_matches hk.old hk.new hn hy

end
end PassesMatch

/-- The nodes of trees that match are as many, and match. -/
theorem Matches.ids_perm (h : t.Matches k t') : (t.ids.map k).Perm t'.ids := by
  have hnodup : (t.ids.map k).Nodup := by
    refine (List.nodup_map_iff_inj_on t.nodup_ids).mpr fun x hx y hy hxy => ?_
    obtain ⟨_, hn⟩ := mem_ids_iff.mp hx
    obtain ⟨_, hm⟩ := mem_ids_iff.mp hy
    exact h.inj hn hm hxy
  refine (List.perm_ext_iff_of_nodup hnodup t'.nodup_ids).mpr fun y => ?_
  rw [List.mem_map, mem_ids_iff]
  constructor
  · rintro ⟨x, hx, rfl⟩
    obtain ⟨n, hn⟩ := mem_ids_iff.mp hx
    obtain ⟨n', hn', -⟩ := h.node hn
    exact ⟨n', hn'⟩
  · rintro ⟨n', hn'⟩
    obtain ⟨x, n, rfl, hn, -⟩ := h.exists_of_get? hn'
    exact ⟨x, mem_ids_iff.mpr ⟨n, hn⟩, rfl⟩

theorem Matches.size_eq (h : t.Matches k t') : t'.size = t.size := by
  rw [← length_ids, ← length_ids, ← h.ids_perm.length_eq, List.length_map]

def isBound (t : Tree) (x : NodeId) : Bool := t.isReported x && (t.resolution? x).any Resolution.isResolved

theorem Matches.isBound_eq (h : t.Matches k t') (ht : t.ProperIn languages) (ht' : t'.ProperIn languages)
    (hn : t.get? x = some n) : t'.isBound (k x) = t.isBound x := by
  obtain ⟨n', hn', hm⟩ := h.node hn
  have hreported : t'.isReported (k x) = t.isReported x := by
    rw [Bool.eq_iff_iff, isReported_iff ht, isReported_iff ht', h.isMemberHalf_iff ht.toWellFormed hn, hn, hn']
    simp only [Option.some.injEq, exists_eq_left', hm.kind_eq]
  rw [isBound, isBound, hreported, h.resolution?_eq hn, Option.any_map]
  congr 2
  exact funext fun r => r.isResolved_map k

/-- A pass has counted the references that it leaves behind resolved. -/
theorem PassIn.countP_isBound (h : PassIn languages config s t T u) :
    T.ids.countP T.isBound = u.resolved + u.implicitMembers := by
  have hreported : (UnitReport.ofUnit "" T u).bindings.countP BindingReport.isResolved =
      (T.reportedReferences u.root).countP fun x => (T.resolution? x).any Resolution.isResolved := by
    rw [← h.map_node_bindings "", List.countP_map]
    refine List.countP_congr fun b hb => ?_
    rw [Function.comp_apply, (h.binding_told hb).1, Option.any_some, BindingReport.isResolved]
  rw [← (h.accounts "").resolved, hreported,
    (Tree.reportedReferences_perm h.bound.proper.toWellFormed h.root_end).countP_eq, List.countP_filter]
  exact List.countP_congr fun x _ => by rw [isBound, Bool.and_comm]

namespace PassesMatch

theorem implicitMembers_eq (h : PassesMatch config g σ s t T s' t' T' u u') (hm : T.Matches k T') :
    u'.implicitMembers = u.implicitMembers := by
  have hsize := h.here.size_eq
  have hsize' := h.there.size_eq
  rw [hm.size_eq, h.contexts.trees.size_eq] at hsize'
  omega

theorem resolved_eq (h : PassesMatch config g σ s t T s' t' T' u u') (hm : T.Matches k T') :
    u'.resolved = u.resolved := by
  have hcount : T'.ids.countP T'.isBound = T.ids.countP T.isBound := by
    rw [← hm.ids_perm.countP_eq, List.countP_map]
    refine List.countP_congr fun x hx => ?_
    obtain ⟨n, hn⟩ := mem_ids_iff.mp hx
    rw [Function.comp_apply, hm.isBound_eq h.here.bound.proper h.there.bound.proper hn]
  rw [h.here.countP_isBound, h.there.countP_isBound, h.implicitMembers_eq hm] at hcount
  omega

end PassesMatch
end Tree
end NameResolution
