import NameResolution.Proofs.Binding.Candidates
import NameResolution.Proofs.Binding.Counts
import NameResolution.Proofs.Document.Lowered
import NameResolution.Proofs.LexicalBinding
import NameResolution.Proofs.Resolve
import NameResolution.Proofs.Tree.Flatten
import NameResolution.Report.Basic

/-!
# Reports account for what was counted

A pass counts references while it walks over a tree and changes it; a report lists those that it finds in the
tree afterwards. The two agree: each step of the pass answers for the reference it was for, and for the base that
it has put below it if it has written it out.
-/
namespace NameResolution

namespace Tree
variable {languages : Set String} {t : Tree} {id x root : NodeId} {n : Node}

theorem isMemberHalf_iff (ht : t.ProperIn languages) : t.isMemberHalf id = true ↔ t.IsMemberHalf id := by
  constructor
  · intro h
    unfold isMemberHalf at h
    split at h
    · rename_i access haccess
      obtain ⟨n, hn, hp⟩ := Option.map_eq_some_iff.mp haccess
      obtain ⟨parent, -, hparent⟩ := Option.bind_eq_some_iff.mp hn
      exact ⟨parent, n, access, hparent, hp, by simpa using h⟩
    · cases h
  · intro h
    obtain ⟨e, n, a, k, hn, hp, ha, hk, hparent⟩ := ht.parent_of_isMemberHalf h
    simp [isMemberHalf, hk, hparent, hn, hp, ha]

/-- The reference that is reported in the place of a node: the access above it, if it is a member half. -/
def reportedAs (t : Tree) (id : NodeId) : NodeId :=
  if t.isMemberHalf id then ((t.get? id).bind Node.parent).getD id else id

theorem reportedAs_of_plain (ht : t.ProperIn languages) (hplain : ¬ t.IsMemberHalf id) : t.reportedAs id = id :=
  if_neg fun hhalf => hplain ((isMemberHalf_iff ht).mp hhalf)

theorem reportedAs_of_half {a : Access} {member : NodeId} (ht : t.ProperIn languages) (hn : t.get? id = some n)
    (hp : n.payload = .member a) (hm : a.member = some member) : t.reportedAs member = id := by
  have hchild : member ∈ n.children := by simp [Node.children, hp, Payload.children, hm]
  obtain ⟨k, hk, hparent⟩ := ht.parent_of_child hn hchild
  rw [reportedAs, if_pos ((isMemberHalf_iff ht).mpr ⟨id, n, a, hn, hp, hm⟩), hk]
  simp [hparent]

theorem isReported_iff (ht : t.ProperIn languages) :
    t.isReported id = true ↔ (∃ n, t.get? id = some n ∧ n.kind.isReference = true) ∧ ¬ t.IsMemberHalf id := by
  rw [isReported, Bool.and_eq_true, Bool.not_eq_true', ← isMemberHalf_iff ht, Bool.not_eq_true, kind?,
    Option.any_map]
  simp [Option.any_eq_true]

theorem isReported_of_get? (ht : t.ProperIn languages) (hn : t.get? id = some n)
    (hk : n.kind.isReference = true) (hplain : ¬ t.IsMemberHalf id) : t.isReported id = true :=
  (isReported_iff ht).mpr ⟨⟨n, hn, hk⟩, hplain⟩

theorem reportedReferences_perm (ht : t.WellFormed) (hroot : t.root = some root) :
    (t.reportedReferences root).Perm (t.ids.filter t.isReported) :=
  (t.sortByPosition_perm _).trans ((ht.flatten_perm hroot).filter _)

theorem nodup_reportedReferences (ht : t.WellFormed) (hroot : t.root = some root) :
    (t.reportedReferences root).Nodup :=
  (reportedReferences_perm ht hroot).nodup_iff.mpr (t.nodup_ids.filter _)

theorem mem_reportedReferences_iff (ht : t.WellFormed) (hroot : t.root = some root) :
    x ∈ t.reportedReferences root ↔ t.isReported x = true := by
  rw [(reportedReferences_perm ht hroot).mem_iff, List.mem_filter, mem_ids_iff, and_iff_right_iff_imp]
  intro h
  rw [isReported, Bool.and_eq_true, kind?] at h
  cases hx : t.get? x with
  | none => simp [hx] at h
  | some n => exact ⟨n, rfl⟩

end Tree

namespace Binding
open NameResolution.Tree

/-- The references that a step answers for: the one it is for, and the base that it has put below it. -/
def Step.reportedIn (T : Tree) (s : Step) : List NodeId := s.node?.toList ++ (s.base? T).toList

/-- Steps answer for one reference each and for the bases. -/
theorem length_reportedIn {T : Tree} {xs : List Step} (hfail : ∀ e, Step.fail e ∉ xs) :
    (xs.flatMap (Step.reportedIn T)).length = xs.length + (xs.filterMap (Step.base? T)).length := by
  induction xs with
  | nil => rfl
  | cons s xs ih =>
    have hnode : s.node?.toList.length = 1 := by
      cases s with
      | fail e => exact absurd (List.mem_cons_self ..) (hfail e)
      | name | access => rfl
    have hrest := ih fun e he => hfail e (List.mem_cons_of_mem _ he)
    rw [List.flatMap_cons, List.length_append, hrest, Step.reportedIn, List.length_append, hnode,
      List.length_cons]
    cases hbase : s.base? T with
    | none =>
      rw [List.filterMap_cons_none hbase, Option.toList_none, List.length_nil]
      omega
    | some b =>
      rw [List.filterMap_cons_some hbase, Option.toList_some, List.length_singleton, List.length_cons]
      omega

/-- What a step has left behind in the tree `T`. -/
inductive Left (T : Tree) : Step → Prop
  | bound {id scope role n r} (now : T.get? id = some n) (payload : n.payload = .reference r)
      (plain : ¬ T.IsMemberHalf id) : Left T (.name id scope role)
  | written {id scope role n base member b d e} (now : T.get? id = some n)
      (payload : n.payload = .member ⟨some base, some member, true, .single d⟩)
      (baseNow : T.get? base = some b) (basePayload : b.payload = .reference (.single e)) :
      Left T (.name id scope role)
  | access {id base member scope role n r} {a : Access} (now : T.get? id = some n)
      (payload : n.payload = .member { a with member := some member, resolution := r })
      (halfNow : T.resolution? member = some r) : Left T (.access id base member scope role)

/-- What a pass binds references to: what a level holds, the base of a name that is written out, and what a
record holds. -/
inductive BoundBy (c : Binding.Context) (t : Tree) : Resolution → Prop
  | level {name scope role} : BoundBy c t (lexical c t name scope role)
  | base {name scope role w} (isWritten : written? c t name scope role = some w) : BoundBy c t (.single w.base)
  | member {record name role} : BoundBy c t (memberOf c t record name role)

namespace Left
variable {languages : Set String} {T : Tree} {s : Step} {x : NodeId}

/-- What a step answers for is reported. -/
theorem isReported (h : Left T s) (hT : T.ProperIn languages) (hx : x ∈ s.reportedIn T) :
    T.isReported x = true := by
  cases h with
  | @bound id scope role n r now payload plain =>
    have hid : x = id := by simpa [Step.reportedIn, Step.node?, Step.base?, now, payload, Payload.base?] using hx
    subst hid
    exact isReported_of_get? hT now (by rw [Node.kind, payload]; rfl) plain
  | @written id scope role n base member b d e now payload baseNow basePayload =>
    have hid : x = id ∨ x = base := by
      simpa [Step.reportedIn, Step.node?, Step.base?, now, payload, Payload.base?] using hx
    rcases hid with rfl | rfl
    · exact isReported_of_get? hT now (by rw [Node.kind, payload]; rfl) (hT.not_isMemberHalf_of_member now payload)
    · exact isReported_of_get? hT baseNow (by rw [Node.kind, basePayload]; rfl)
        (base_not_half hT now payload rfl rfl)
  | @access id base member scope role n r a now payload halfNow =>
    have hid : x = id := by simpa [Step.reportedIn, Step.node?, Step.base?] using hx
    subst hid
    exact isReported_of_get? hT now (by rw [Node.kind, payload]; rfl) (hT.not_isMemberHalf_of_member now payload)

/-- The unresolved references that a step answers for are reported in the place of those it has counted. -/
theorem filter_unresolved (h : Left T s) (hT : T.ProperIn languages) :
    (s.reportedIn T).filter (fun x => decide (T.resolution? x = some .unresolved)) =
      (s.unresolvedIn T).map T.reportedAs := by
  cases h with
  | @bound id scope role n r now payload plain =>
    have hself := reportedAs_of_plain hT plain
    by_cases hr : T.resolution? id = some .unresolved <;>
      simp [Step.reportedIn, Step.node?, Step.base?, Step.unresolvedIn, now, payload, Payload.base?, hr, hself]
  | @written id scope role n base member b d e now payload baseNow basePayload =>
    have hid : T.resolution? id = some (.single d) := resolution?_of_get? now (by rw [payload]; rfl)
    have hbase : T.resolution? base = some (.single e) := resolution?_of_get? baseNow (by rw [basePayload]; rfl)
    simp [Step.reportedIn, Step.node?, Step.base?, Step.unresolvedIn, now, payload, Payload.base?, hid, hbase]
  | @access id base member scope role n r a now payload halfNow =>
    have hid : T.resolution? id = some r := resolution?_of_get? now (by rw [payload]; rfl)
    have habove : T.reportedAs member = id := reportedAs_of_half hT now payload rfl
    by_cases hr : r = .unresolved <;>
      simp [Step.reportedIn, Step.node?, Step.base?, Step.unresolvedIn, hid, halfNow, hr, habove]

/-- What a step answers for and leaves unbound it lists: a name itself, and an access by its member half. -/
theorem listed {n : Node} (h : Left T s) (hx : x ∈ s.reportedIn T) (hn : T.get? x = some n)
    (hr : n.payload.resolution? = some .unresolved) :
    (∃ ρ, n.payload = .reference ρ) ∧ x ∈ s.unresolvedIn T ∨
      ∃ a m, n.payload = .member a ∧ a.member = some m ∧ m ∈ s.unresolvedIn T := by
  cases h with
  | bound now payload plain =>
    obtain rfl : x = _ := by simpa [Step.reportedIn, Step.node?, Step.base?, now, payload, Payload.base?] using hx
    rw [hn] at now
    cases now
    exact .inl ⟨⟨_, payload⟩, by simp [Step.unresolvedIn, resolution?_of_get? hn hr]⟩
  | @written id scope role k base member b d e now payload baseNow basePayload =>
    have hid : x = id ∨ x = base := by
      simpa [Step.reportedIn, Step.node?, Step.base?, now, payload, Payload.base?] using hx
    rcases hid with rfl | rfl
    · rw [hn] at now
      cases now
      rw [payload] at hr
      cases hr
    · rw [hn] at baseNow
      cases baseNow
      rw [basePayload] at hr
      cases hr
  | access now payload halfNow =>
    obtain rfl : x = _ := by simpa [Step.reportedIn, Step.node?, Step.base?] using hx
    rw [hn] at now
    cases now
    rw [payload] at hr
    cases hr
    exact .inr ⟨_, _, payload, rfl, by simp [Step.unresolvedIn, halfNow]⟩

end Left
end Binding

namespace Tree.PassIn
open Binding
variable {languages : Set String} {config : Config} {t t' T : Tree} {u : ResolvedUnit} {x : NodeId} {s : Step}

theorem root_end (h : PassIn languages config t t' T u) : T.root = some u.root :=
  h.toExtends.root.trans h.root_eq

theorem left (h : PassIn languages config t t' T u) (hs : s ∈ t'.bindingSteps u.scopes u.root) : Left T s := by
  have hplaced := h.placed s hs
  have hsettled := h.bound.settled s hs
  cases hsettled with
  | bound node notWritten now =>
    cases hplaced with
    | name _ _ plain _ =>
      exact .bound now rfl fun hhalf =>
        plain (h.bound.toExtends.isMemberHalf h.walked.proper.toWellFormed h.bound.proper node hhalf)
  | written node isWritten _ _ now baseNow memberNow => exact .written now rfl baseNow rfl
  | access node payload half now halfNow baseNow resolution =>
    cases hplaced with
    | access node' payload' _ hasMember _ =>
      rw [node] at node'
      cases node'
      rw [payload] at payload'
      cases payload'
      exact .access now (by rw [← hasMember]) (resolution?_of_get? halfNow rfl)

/-- The step that answers for a reference is the one for it or for the name above it. -/
theorem node?_of_reportedIn (h : PassIn languages config t t' T u) (hs : s ∈ t'.bindingSteps u.scopes u.root)
    (hx : x ∈ s.reportedIn T) :
    s.node? = if (t'.get? x).isSome then some x else (T.get? x).bind Node.parent := by
  have hplaced := h.placed s hs
  have hsettled := h.bound.settled s hs
  cases hsettled with
  | bound node notWritten now =>
    obtain rfl : x = _ := by simpa [Step.reportedIn, Step.node?, Step.base?, now, Payload.base?] using hx
    simp [Step.node?, node]
  | @written id n scope role w base member node isWritten freshBase _ now baseNow memberNow =>
    have hid : x = id ∨ x = base := by
      simpa [Step.reportedIn, Step.node?, Step.base?, now, Payload.base?] using hx
    rcases hid with rfl | rfl
    · simp [Step.node?, node]
    · simp [Step.node?, freshBase, baseNow]
  | access node =>
    obtain rfl : x = _ := by simpa [Step.reportedIn, Step.node?, Step.base?] using hx
    simp [Step.node?, node]

/-- No two steps answer for the same reference. -/
theorem nodup_reportedIn (h : PassIn languages config t t' T u) :
    ((t'.bindingSteps u.scopes u.root).flatMap (Step.reportedIn T)).Nodup := by
  have hwf := h.walked.proper.toWellFormed
  refine List.nodup_flatMap.mpr ⟨fun s hs => ?_, ?_⟩
  · cases h.bound.settled s hs with
    | bound node notWritten now => simp [Step.reportedIn, Step.node?, Step.base?, now, Payload.base?]
    | @written id n scope role w base member node isWritten freshBase _ now =>
      have hne : id ≠ base := by
        rintro rfl
        rw [node] at freshBase
        cases freshBase
      simp [Step.reportedIn, Step.node?, Step.base?, now, Payload.base?, hne]
    | access => simp [Step.reportedIn, Step.node?, Step.base?]
  · refine (steps_pairwise hwf).imp_of_mem ?_
    intro s s' hs hs' hbefore
    change List.Disjoint _ _
    rw [List.disjoint_left]
    intro x hx hx'
    have hnode := (h.node?_of_reportedIn hs hx).trans (h.node?_of_reportedIn hs' hx').symm
    obtain ⟨y, hy⟩ : ∃ y, s.node? = some y := by
      cases s with
      | fail e => cases hx
      | name | access => exact ⟨_, rfl⟩
    exact hbefore y (Step.node?_mem_targets (hnode ▸ hy)) (s.targets_subset_reads (Step.node?_mem_targets hy))

/-- Some step answers for each reference that is reported. -/
theorem exists_reportedIn (h : PassIn languages config t t' T u) (hx : T.isReported x = true) :
    ∃ s ∈ t'.bindingSteps u.scopes u.root, x ∈ s.reportedIn T := by
  have hT := h.bound.proper
  obtain ⟨⟨n, hn, hk⟩, hplain⟩ := (isReported_iff hT).mp hx
  obtain ⟨s, hs, -, -, horigin⟩ := h.exists_origin hn hk
  refine ⟨s, hs, ?_⟩
  have hleft := h.left hs
  rcases horigin with htarget | ⟨id, scope, role, rfl, hparent⟩
  · cases hleft with
    | bound | written =>
      rw [List.mem_singleton.mp htarget]
      simp [Step.reportedIn, Step.node?]
    | @access id base member scope role n r a now payload halfNow =>
      rcases List.mem_cons.mp htarget with rfl | hid
      · exact absurd ⟨id, n, _, now, payload, rfl⟩ hplain
      · rw [List.mem_singleton.mp hid]
        simp [Step.reportedIn, Step.node?]
  · -- The reference is new, so that it stands below a name that has been written out.
    obtain ⟨m, hm, hchild⟩ := hT.child_of_parent hn hparent
    cases hleft with
    | bound now payload _ =>
      rw [now] at hm
      cases hm
      simp [Node.children, payload, Payload.children] at hchild
    | @written _ _ _ _ base member b d e now payload =>
      rw [now] at hm
      cases hm
      have hid : x = base ∨ x = member := by simpa [Node.children, payload, Payload.children] using hchild
      rcases hid with rfl | rfl
      · simp [Step.reportedIn, Step.base?, now, payload, Payload.base?]
      · exact absurd ⟨id, _, _, now, payload, rfl⟩ hplain

/-- The references that are reported are those that the steps of the pass answer for. -/
theorem reportedReferences_perm (h : PassIn languages config t t' T u) :
    (T.reportedReferences u.root).Perm
      ((t'.bindingSteps u.scopes u.root).flatMap (Step.reportedIn T)) := by
  have hT := h.bound.proper
  refine (List.perm_ext_iff_of_nodup (nodup_reportedReferences hT.toWellFormed h.root_end)
    h.nodup_reportedIn).mpr fun x => ?_
  rw [mem_reportedReferences_iff hT.toWellFormed h.root_end, List.mem_flatMap]
  exact ⟨h.exists_reportedIn, fun ⟨s, hs, hx⟩ => (h.left hs).isReported hT hx⟩

/-- Every reference that a pass leaves behind is bound in one of three ways. -/
theorem boundBy (h : PassIn languages config t t' T u) {r : Resolution} (hr : T.resolution? x = some r) :
    BoundBy (u.context config) t' r := by
  cases h.boundAs hr with
  | name => exact .level
  | field _ _ _ _ isWritten => exact lexical_of_written isWritten ▸ .level
  | receiver _ _ _ _ isWritten => exact .base isWritten
  | access _ _ _ _ _ _ _ _ resolution => exact resolution ▸ .member

/-- Whatever a reference is bound to was a node of the registered tree. -/
theorem exists_of_mem_candidates (h : PassIn languages config t t' T u) {r : Resolution}
    (hr : T.resolution? x = some r) {d : NodeId} (hd : d ∈ r.candidates) : ∃ m, t'.get? d = some m := by
  have hground := h.walked.grounded
  cases h.boundBy hr with
  | level => exact exists_of_mem_lexical (c := u.context config) hground hd
  | base isWritten =>
    obtain rfl := List.mem_singleton.mp hd
    exact exists_of_written isWritten
  | member => exact exists_of_mem_memberOf (c := u.context config) hground hd

/-- It still is one. -/
theorem live_candidates (h : PassIn languages config t t' T u) {r : Resolution} (hr : T.resolution? x = some r)
    {d : NodeId} (hd : d ∈ r.candidates) : ∃ m, T.get? d = some m := by
  obtain ⟨m, hm⟩ := h.exists_of_mem_candidates hr hd
  obtain ⟨m', hm', -⟩ := h.bound.toExtends.node hm
  exact ⟨m', hm'⟩

end Tree.PassIn

namespace Tree
variable {t : Tree} {x : NodeId} {r : Resolution} {b : BindingReport}

theorem isSome_reportBinding? (hr : t.resolution? x = some r) : (t.reportBinding? x).isSome = true := by
  obtain ⟨n, hn, hr⟩ := Option.bind_eq_some_iff.mp hr
  simp [reportBinding?, hn, hr]

theorem reportBinding?_eq_some (h : t.reportBinding? x = some b) :
    b.node = x ∧ t.resolution? x = some b.resolution ∧
      b.declarations = b.resolution.candidates.filterMap t.reportDeclaration? := by
  simp only [reportBinding?, Option.bind_eq_bind, Option.bind_eq_some_iff, Option.pure_def,
    Option.some.injEq] at h
  obtain ⟨n, hn, r, hr, rfl⟩ := h
  exact ⟨rfl, resolution?_of_get? hn hr, rfl⟩

/-- The declarations that are there are all reported. -/
theorem map_id_reportDeclaration? {ds : List NodeId} (h : ∀ d ∈ ds, ∃ m, t.get? d = some m) :
    (ds.filterMap t.reportDeclaration?).map DeclarationReport.id = ds := by
  induction ds with
  | nil => rfl
  | cons d ds ih =>
    obtain ⟨m, hm⟩ := h d (by simp)
    rw [List.filterMap_cons_some (b := ⟨d, m.kind, m.name, m.region.map Region.startLine⟩)
      (by simp [reportDeclaration?, hm]), List.map_cons, ih fun e he => h e (List.mem_cons_of_mem _ he)]

end Tree

/-- The report accounts for the unit `u`, which a pass has left in the tree `t`. -/
structure Accounts (t : Tree) (u : ResolvedUnit) (report : UnitReport) : Prop where
  once : (report.bindings.map BindingReport.node).Nodup
  all : ∀ id, id ∈ report.bindings.map BindingReport.node ↔
    (∃ n, t.get? id = some n ∧ n.kind.isReference = true) ∧ ¬ t.IsMemberHalf id
  told : ∀ b ∈ report.bindings, t.resolution? b.node = some b.resolution ∧
    b.declarations.map DeclarationReport.id = b.resolution.candidates
  bindings : report.bindings.length = u.resolved + u.unresolved.size + u.implicitMembers
  resolved : report.bindings.countP BindingReport.isResolved = u.resolved + u.implicitMembers
  unresolved_once : u.unresolved.toList.Nodup
  unresolved : (u.unresolved.toList.map t.reportedAs).Perm
    ((report.bindings.filter fun b => !b.isResolved).map BindingReport.node)

namespace Tree.PassIn
open Binding
variable {languages : Set String} {config : Config} {t t' T : Tree} {u : ResolvedUnit}

/-- The bindings of a report are those of the references that are reported. -/
theorem map_node_bindings (h : PassIn languages config t t' T u) (file : String) :
    (UnitReport.ofUnit file T u).bindings.map BindingReport.node = T.reportedReferences u.root := by
  have hT := h.bound.proper
  rw [UnitReport.ofUnit, List.map_filterMap]
  refine Eq.trans (List.filterMap_congr fun x hx => ?_) List.filterMap_some
  rw [mem_reportedReferences_iff hT.toWellFormed h.root_end, isReported_iff hT] at hx
  obtain ⟨⟨n, hn, hk⟩, -⟩ := hx
  rw [Node.kind, ← Payload.resolution?_isSome] at hk
  obtain ⟨r, hr⟩ := Option.isSome_iff_exists.mp hk
  obtain ⟨b, hb⟩ := Option.isSome_iff_exists.mp (isSome_reportBinding? (resolution?_of_get? hn hr))
  rw [hb, Option.map_some, (reportBinding?_eq_some hb).1]

/-- A binding tells what its node is bound to, with all declarations. -/
theorem binding_told (h : PassIn languages config t t' T u) {file : String} {b : BindingReport}
    (hb : b ∈ (UnitReport.ofUnit file T u).bindings) :
    T.resolution? b.node = some b.resolution ∧
      b.declarations.map DeclarationReport.id = b.resolution.candidates := by
  obtain ⟨x, -, hx⟩ := List.mem_filterMap.mp hb
  obtain ⟨rfl, hr, hdeclarations⟩ := reportBinding?_eq_some hx
  exact ⟨hr, hdeclarations ▸ map_id_reportDeclaration? fun d hd => h.live_candidates hr hd⟩

/-- The bindings that are not resolved are those of the unresolved references. -/
theorem unresolved_perm (h : PassIn languages config t t' T u) (file : String) :
    (u.unresolved.toList.map T.reportedAs).Perm
      (((UnitReport.ofUnit file T u).bindings.filter fun b => !b.isResolved).map BindingReport.node) := by
  have hcounted : u.unresolved.toList.map T.reportedAs =
      ((t'.bindingSteps u.scopes u.root).flatMap (Step.reportedIn T)).filter
        fun x => decide (T.resolution? x = some .unresolved) := by
    rw [show u.unresolved.toList = _ from h.bound.unresolved, List.map_flatMap, List.filter_flatMap]
    exact List.flatMap_congr fun s hs => ((h.left hs).filter_unresolved h.bound.proper).symm
  have htold : ((UnitReport.ofUnit file T u).bindings.filter fun b => !b.isResolved).map BindingReport.node =
      (T.reportedReferences u.root).filter fun x => decide (T.resolution? x = some .unresolved) := by
    rw [← h.map_node_bindings file, List.filter_map]
    congr 1
    refine List.filter_congr fun b hb => ?_
    rw [Function.comp_apply, (h.binding_told hb).1, BindingReport.isResolved]
    cases b.resolution <;> rfl
  rw [hcounted, htold]
  exact (h.reportedReferences_perm.filter _).symm

/-- There are as many bindings as steps and bases. -/
theorem length_bindings (h : PassIn languages config t t' T u) (file : String) :
    (UnitReport.ofUnit file T u).bindings.length = u.resolved + u.unresolved.size + u.implicitMembers := by
  have hcounted : u.resolved + u.unresolved.size = (t'.bindingSteps u.scopes u.root).length :=
    counted_run h.binding
  have himplicit : u.implicitMembers =
      ((t'.bindingSteps u.scopes u.root).filterMap (Step.base? T)).length :=
    Invariant.implicitMembers_run h.walked.proper h.walked.grounded h.placed
      (steps_pairwise h.walked.proper.toWellFormed) h.binding
  rw [← List.length_map (f := BindingReport.node), h.map_node_bindings, h.reportedReferences_perm.length_eq,
    length_reportedIn (Invariant.fail_not_mem h.binding), hcounted, himplicit]

theorem accounts (h : PassIn languages config t t' T u) (file : String) :
    Accounts T u (UnitReport.ofUnit file T u) := by
  have hT := h.bound.proper
  have honce := nodup_reportedReferences hT.toWellFormed h.root_end
  have hlength := h.length_bindings file
  have hperm := h.unresolved_perm file
  constructor
  case once => rwa [h.map_node_bindings]
  case all =>
    intro id
    rw [h.map_node_bindings, mem_reportedReferences_iff hT.toWellFormed h.root_end, isReported_iff hT]
  case told => exact fun b hb => h.binding_told hb
  case bindings => exact hlength
  case resolved =>
    have hsplit := (UnitReport.ofUnit file T u).bindings.length_eq_countP_add_countP BindingReport.isResolved
    have hcount := hperm.length_eq
    rw [List.length_map, List.length_map, ← List.countP_eq_length_filter, Array.length_toList] at hcount
    simp only [Bool.not_eq_true, Bool.decide_eq_false] at hsplit
    omega
  case unresolved_once =>
    refine List.Nodup.of_map T.reportedAs (hperm.nodup_iff.mpr ?_)
    refine List.Nodup.sublist (List.filter_sublist.map _) ?_
    rwa [h.map_node_bindings]
  case unresolved => exact hperm

end Tree.PassIn

/-- Whatever passes have gone over the tree of a document, the report on the next one that succeeds accounts for
what it has counted. -/
theorem accounts_of_resolve {document : SyntaxNode} {history : List Config} {config : Config} {t : Tree}
    {u : ResolvedUnit} (hdocument : Tree.ofSyntax document = .ok t)
    (hresolve : ((t.resolveAll history).resolve config).result = .ok u) (file : String) :
    Accounts ((t.resolveAll history).resolve config).tree u
      (UnitReport.ofUnit file ((t.resolveAll history).resolve config).tree u) := by
  have hlanguages : ∀ earlier ∈ history, earlier.separator ∈ Set.univ := fun _ _ => Set.mem_univ _
  have ht := (Tree.properIn_of_ofSyntax hdocument Set.univ).resolveAll hlanguages
  obtain ⟨t', h⟩ := Tree.exists_passIn ht (Set.mem_univ config.separator) hresolve
  exact h.accounts file

/-- The second pass finds the written-out access and its base in the tree and counts both as names. -/
theorem accounts_of_resolve_count :
    Tree.ofSyntax counter = .ok counterTree ∧
      ((counterTree.resolveAll [{}]).resolve {}).result =
        .ok { counterUnit with resolved := 2, implicitMembers := 0 } ∧
      Accounts ((counterTree.resolveAll [{}]).resolve {}).tree
        { counterUnit with resolved := 2, implicitMembers := 0 }
        (UnitReport.ofUnit "Counter" ((counterTree.resolveAll [{}]).resolve {}).tree
          { counterUnit with resolved := 2, implicitMembers := 0 }) := by
  have hdocument : Tree.ofSyntax counter = .ok counterTree := rfl
  have hresolve : ((counterTree.resolveAll [{}]).resolve {}).result =
      .ok { counterUnit with resolved := 2, implicitMembers := 0 } := by decide +kernel
  exact ⟨hdocument, hresolve, accounts_of_resolve hdocument hresolve "Counter"⟩

end NameResolution
