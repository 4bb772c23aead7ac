import NameResolution.Proofs.Binding.Agreement
import NameResolution.Proofs.Binding.Changes

/-!
# The invariant of binding

A step that has been done is settled: its nodes are bound as the registered tree says, and no later step
touches them. Nodes that no step has bound are still as they were, and new nodes stand below names that
have been written out.
-/
namespace NameResolution.Binding
open NameResolution.Tree ScopeTree Registration

def Step.unresolvedIn (t : Tree) : Step → List NodeId
  | name id _ _ => if t.resolution? id = some .unresolved then [id] else []
  | access _ _ member _ _ => if t.resolution? member = some .unresolved then [member] else []
  | fail _ => []

/-- The nodes of a step are in `T` as they should be, seen from the tree `t` that the walk began with. -/
inductive Settled (c : Context) (t T : Tree) : Step → Prop
  | bound {id n scope role} (node : t.get? id = some n) (notWritten : written? c t n.name scope role = none)
      (now : T.get? id = some { n with payload := .reference (lexical c t n.name scope role) }) :
      Settled c t T (.name id scope role)
  | written {id n scope role w base member} (node : t.get? id = some n)
      (isWritten : written? c t n.name scope role = some w)
      (freshBase : t.get? base = none) (freshMember : t.get? member = none)
      (now : T.get? id = some { n with payload := .member ⟨some base, some member, true, .single w.field⟩ })
      (baseNow : T.get? base = some ⟨base, w.name, n.region, some id, .reference (.single w.base)⟩)
      (memberNow : T.get? member =
        some ⟨member, n.name, n.region, some id, .reference (.single w.field)⟩) :
      Settled c t T (.name id scope role)
  | access {id n a base b member k r scope role} (node : t.get? id = some n) (payload : n.payload = .member a)
      (half : t.get? member = some k)
      (now : T.get? id = some { n with payload := .member { a with resolution := r } })
      (halfNow : T.get? member = some { k with payload := .reference r })
      (baseNow : T.get? base = some b)
      (resolution : r = memberOf c t (recordOfBase? c T base scope) k.name role) :
      Settled c t T (.access id base member scope role)

/-- What holds of the progress `p` after the steps `done` over the tree `t`. -/
structure Invariant (languages : Set String) (c : Context) (t : Tree) (done : List Step) (p : Progress) :
    Prop where
  toExtends : t.Extends p.tree
  same : t.SameDeclarations p.tree
  proper : p.tree.ProperIn languages
  pending : ∀ {x m}, t.get? x = some m → (∀ s ∈ done, x ∉ s.targets) → p.tree.get? x = some m
  settled : ∀ s ∈ done, Settled c t p.tree s
  new : ∀ {x m}, p.tree.get? x = some m → t.get? x = none →
    ∃ id scope role, .name id scope role ∈ done ∧ m.parent = some id
  unresolved : p.bindings.unresolved.toList = done.flatMap (Step.unresolvedIn p.tree)

section
variable {c : Context} {t T T' : Tree} {s : Step}

/-- A settled step stays settled while its nodes stay as they are. -/
theorem Settled.mono (h : Settled c t T s) (hground : Grounded T c.scopes)
    (hsame : T.SameDeclarations T')
    (hkept : ∀ {x m}, T.get? x = some m → x ∈ s.reads ∨ t.get? x = none → T'.get? x = some m) :
    Settled c t T' s := by
  cases h with
  | bound node notWritten now => exact .bound node notWritten (hkept now (.inl (by simp [Step.reads])))
  | written node isWritten freshBase freshMember now baseNow memberNow =>
    exact .written node isWritten freshBase freshMember (hkept now (.inl (by simp [Step.reads])))
      (hkept baseNow (.inr freshBase)) (hkept memberNow (.inr freshMember))
  | access node payload half now halfNow baseNow resolution =>
    have hbase := hkept baseNow (.inl (by simp [Step.reads]))
    refine .access node payload half (hkept now (.inl (by simp [Step.reads])))
      (hkept halfNow (.inl (by simp [Step.reads]))) hbase ?_
    rw [resolution, recordOfBase?_congr hground hsame (by rw [hbase, baseNow])]

theorem Settled.unresolvedIn_eq (h : Settled c t T s)
    (hkept : ∀ {x m}, T.get? x = some m → x ∈ s.reads → T'.get? x = some m) :
    s.unresolvedIn T' = s.unresolvedIn T := by
  cases h with
  | bound _ _ now | written _ _ _ _ now _ _ =>
    simp only [Step.unresolvedIn, resolution?, now, hkept now (by simp [Step.reads])]
  | access _ _ _ _ halfNow =>
    simp only [Step.unresolvedIn, resolution?, halfNow, hkept halfNow (by simp [Step.reads])]

end

namespace Invariant
variable {languages : Set String} {c : Context} {t : Tree} {done : List Step} {p p' : Progress} {s : Step}

theorem start (h : t.ProperIn languages) : Invariant languages c t [] { tree := t } :=
  ⟨.refl t, SameDeclarations.refl t, h, fun hm _ => hm, by simp, fun hm hno => by simp [hno] at hm, rfl⟩

/-- What a step must do for the invariant: change nothing but its targets, settle them, and put new nodes
below the name it writes out. -/
theorem extend (h : Invariant languages c t done p) (ht : t.WellFormed)
    (hground : Grounded t c.scopes)
    (hreads : ∀ s' ∈ done, ∀ x ∈ s.targets, x ∉ s'.reads)
    (htargets : ∀ x ∈ s.targets, ∃ m, t.get? x = some m)
    (hext : p.tree.Extends p'.tree) (hsame : p.tree.SameDeclarations p'.tree)
    (hproper : p'.tree.ProperIn languages)
    (hkept : ∀ {x m}, x ∉ s.targets → p.tree.get? x = some m → p'.tree.get? x = some m)
    (hsettled : Settled c t p'.tree s)
    (hnew : ∀ {x m}, p'.tree.get? x = some m → p.tree.get? x = none →
      ∃ id scope role, s = .name id scope role ∧ m.parent = some id)
    (hunresolved : p'.bindings.unresolved.toList =
      p.bindings.unresolved.toList ++ s.unresolvedIn p'.tree) :
    Invariant languages c t (done ++ [s]) p' := by
  have hground' := hground.sameDeclarations ht h.toExtends h.same
  have hread : ∀ {s' x}, s' ∈ done → x ∈ s'.reads → x ∉ s.targets :=
    fun hs' hx hmem => hreads _ hs' _ hmem hx
  refine ⟨h.toExtends.trans hext, SameDeclarations.trans h.same hsame, hproper, ?_, ?_, ?_, ?_⟩
  · intro x m hm hno
    exact hkept (hno s (by simp)) (h.pending hm fun s' hs' => hno s' (List.mem_append_left _ hs'))
  · intro s' hs'
    rcases List.mem_append.mp hs' with hs' | hs'
    · refine (h.settled s' hs').mono hground' hsame fun hm hx => hkept ?_ hm
      rcases hx with hx | hnone
      · exact hread hs' hx
      · intro hmem
        obtain ⟨m, hm⟩ := htargets _ hmem
        rw [hnone] at hm
        cases hm
    · rw [List.mem_singleton.mp hs']
      exact hsettled
  · intro x m hm hnone
    cases hx : p.tree.get? x with
    | none =>
      obtain ⟨id, scope, role, rfl, hparent⟩ := hnew hm hx
      exact ⟨id, scope, role, by simp, hparent⟩
    | some m' =>
      have hne : x ∉ s.targets := by
        intro hmem
        obtain ⟨k, hk⟩ := htargets _ hmem
        rw [hnone] at hk
        cases hk
      rw [hkept hne hx] at hm
      cases hm
      obtain ⟨id, scope, role, hmem, hparent⟩ := h.new hx hnone
      exact ⟨id, scope, role, List.mem_append_left _ hmem, hparent⟩
  · rw [hunresolved, h.unresolved, List.flatMap_append, List.flatMap_singleton]
    congr 1
    refine List.flatMap_congr fun s' hs' => ?_
    exact ((h.settled s' hs').unresolvedIn_eq fun hm hx => hkept (hread hs' hx) hm).symm

theorem record_unresolved (b : Bindings) (id : NodeId) (r : Resolution) :
    (b.record id r).unresolved.toList =
      b.unresolved.toList ++ if some r = some .unresolved then [id] else [] := by
  cases r <;> simp [Bindings.record, Resolution.isResolved]

/-- A name that is not written out is bound in place. -/
theorem name_bound (h : Invariant languages c t done p) (ht : t.WellFormed) (hground : Grounded t c.scopes)
    {id : NodeId} {n : Node} {r : Resolution} {scope : ScopeId} {role : Role} (hn : t.get? id = some n)
    (hpn : p.tree.get? id = some n) (hp : n.payload = .reference r)
    (hreads : ∀ s ∈ done, ∀ x ∈ (Step.name id scope role).targets, x ∉ s.reads)
    (hw : written? c t n.name scope role = none) :
    Invariant languages c t (done ++ [.name id scope role])
      ⟨p.tree.bind id (lexical c t n.name scope role),
        p.bindings.record id (lexical c t n.name scope role)⟩ := by
  have hg := growsAt_bind hpn (lexical c t n.name scope role)
  have hnow : (p.tree.bind id (lexical c t n.name scope role)).get? id =
      some { n with payload := .reference (lexical c t n.name scope role) } := by
    rw [hg.after, hp]
    rfl
  refine h.extend ht hground hreads ?_ hg.toExtends (sameDeclarations_bind hpn (by rw [Node.kind, hp]; rfl) _)
    (properIn_bind h.proper hpn _) ?_ (.bound hn hw hnow) ?_ ?_
  · intro x hx
    exact ⟨n, List.mem_singleton.mp hx ▸ hn⟩
  · exact fun hx hm => hg.kept (fun he => hx (List.mem_singleton.mpr he)) hm
  · intro x m hm hnone
    rcases hg.cases hm with ⟨rfl, -⟩ | ⟨-, hm'⟩ | ⟨-, hf⟩
    · simp [hpn] at hnone
    · simp [hm'] at hnone
    · cases hf
  · rw [record_unresolved, Step.unresolvedIn, resolution?_of_get? hnow rfl]

/-- A name that is written out gets two new names below it. -/
theorem name_written (h : Invariant languages c t done p) (ht : t.ProperIn languages)
    (hground : Grounded t c.scopes) {id : NodeId} {n : Node} {r : Resolution} {scope : ScopeId}
    {role : Role} (hn : t.get? id = some n) (hpn : p.tree.get? id = some n) (hp : n.payload = .reference r)
    (hplain : ¬ t.IsMemberHalf id)
    (hreads : ∀ s ∈ done, ∀ x ∈ (Step.name id scope role).targets, x ∉ s.reads) {w : ImplicitAccess}
    (hw : written? c t n.name scope role = some w) :
    Invariant languages c t (done ++ [.name id scope role])
      ⟨p.tree.writeOutAccess id w.name (.single w.base) (.single w.field),
        { p.bindings with
          resolved := p.bindings.resolved + 1
          implicitMembers := p.bindings.implicitMembers + 1 }⟩ := by
  have hg := growsAt_writeOutAccess w.name (.single w.base) (.single w.field) hpn hp
  obtain ⟨hbase, hmember⟩ := nodes_of_writeOutAccess w.name (.single w.base) (.single w.field) hpn
  refine h.extend ht.toWellFormed hground hreads ?_ hg.toExtends (sameDeclarations_writeOutAccess _ _ _ hpn hp)
    (properIn_writeOutAccess _ _ _ h.proper hpn hp ?_) ?_
    (.written hn hw (h.toExtends.get?_eq_none (hg.fresh _ (by simp)))
      (h.toExtends.get?_eq_none (hg.fresh _ (by simp))) hg.after hbase hmember) ?_ ?_
  · intro x hx
    exact ⟨n, List.mem_singleton.mp hx ▸ hn⟩
  · exact fun hhalf => hplain (h.toExtends.isMemberHalf ht.toWellFormed h.proper hn hhalf)
  · exact fun hx hm => hg.kept (fun he => hx (List.mem_singleton.mpr he)) hm
  · intro x m hm hnone
    rcases hg.cases hm with ⟨rfl, -⟩ | ⟨-, hm'⟩ | ⟨-, hf⟩
    · simp [hpn] at hnone
    · simp [hm'] at hnone
    · exact ⟨id, scope, role, rfl, (hg.leaf_eq hf hm).2.1⟩
  · simp [Step.unresolvedIn, resolution?, hg.after, Payload.resolution?, writtenAccess]

theorem name (h : Invariant languages c t done p) (ht : t.ProperIn languages)
    (hground : Grounded t c.scopes) {id : NodeId} {n : Node} {r : Resolution} {scope : ScopeId}
    {role : Role} (hn : t.get? id = some n) (hp : n.payload = .reference r) (hplain : ¬ t.IsMemberHalf id)
    (hreads : ∀ s ∈ done, ∀ x ∈ (Step.name id scope role).targets, x ∉ s.reads) :
    Invariant languages c t (done ++ [.name id scope role]) (named c p id n.name scope role) := by
  have hpn : p.tree.get? id = some n :=
    h.pending hn fun s hs hmem => hreads s hs _ (List.mem_singleton.mpr rfl) (s.targets_subset_reads hmem)
  rw [named, written?_congr hground h.same, lexical_congr hground h.same]
  cases hw : written? c t n.name scope role with
  | none => exact h.name_bound ht.toWellFormed hground hn hpn hp hreads hw
  | some w => exact h.name_written ht hground hn hpn hp hplain hreads hw

theorem access (h : Invariant languages c t done p) (ht : t.ProperIn languages)
    (hground : Grounded t c.scopes) {id base member : NodeId} {n k : Node} {a : Access}
    {scope : ScopeId} {role : Role} (hn : t.get? id = some n) (hp : n.payload = .member a)
    (hb : a.base = some base) (hm : a.member = some member) (hk : t.get? member = some k)
    (hreads : ∀ s ∈ done, ∀ x ∈ (Step.access id base member scope role).targets, x ∉ s.reads) :
    Invariant languages c t (done ++ [.access id base member scope role])
      (accessed p id member
        (memberOf c p.tree (recordOfBase? c p.tree base scope) k.name role)) := by
  have hwf := ht.toWellFormed
  have htarget : ∀ {x}, x ∈ (Step.access id base member scope role).targets ↔ x = member ∨ x = id := by
    simp [Step.targets]
  have hunbound : ∀ {x m}, x ∈ (Step.access id base member scope role).targets → t.get? x = some m →
      p.tree.get? x = some m :=
    fun hx hm => h.pending hm fun s hs hmem => hreads s hs _ hx (s.targets_subset_reads hmem)
  generalize hr : memberOf c p.tree (recordOfBase? c p.tree base scope) k.name role = r
  have hbinds : BindsAccess languages p.tree id member n k a r (accessed p id member r).tree :=
    bindsAccess h.proper (hunbound (htarget.mpr (.inr rfl)) hn) hp hm (hunbound (htarget.mpr (.inl rfl)) hk) r
  -- The base stays as it is, so that it leads to the same record.
  have hbc := base_mem_children hp hb
  obtain ⟨bn, hbn, -⟩ := hwf.parent_of_child hn hbc
  obtain ⟨bn', hpb, -⟩ := h.toExtends.node hbn
  have hbid : base ≠ id := by
    rintro rfl
    exact hwf.not_below_of_child hn hbc (.refl t base)
  have hbase : (accessed p id member r).tree.get? base = some bn' :=
    hbinds.kept (base_ne_member hwf hn hp hb hm) hbid hpb
  have hrecord : recordOfBase? c (accessed p id member r).tree base scope =
      recordOfBase? c p.tree base scope :=
    recordOfBase?_congr (hground.sameDeclarations hwf h.toExtends h.same) hbinds.same
      (congrArg (Option.map Node.payload) (hbase.trans hpb.symm)) scope
  have hresolution : r = memberOf c t (recordOfBase? c (accessed p id member r).tree base scope)
      k.name role := by
    rw [hrecord, ← memberOf_congr hground h.same, hr]
  refine h.extend hwf hground hreads ?_ hbinds.toExtends hbinds.same hbinds.proper ?_
    (.access hn hp hk hbinds.access hbinds.half hbase hresolution) ?_ ?_
  · intro x hx
    rcases htarget.mp hx with rfl | rfl
    · exact ⟨k, hk⟩
    · exact ⟨n, hn⟩
  · intro x m hx hxm
    exact hbinds.kept (fun he => hx (htarget.mpr (.inl he))) (fun he => hx (htarget.mpr (.inr he))) hxm
  · intro x m hxm hnone
    obtain ⟨m', hm'⟩ := hbinds.only hxm
    simp [hm'] at hnone
  · rw [show (accessed p id member r).bindings = p.bindings.record member r from rfl, record_unresolved,
      Step.unresolvedIn, resolution?_of_get? hbinds.half rfl]

/-- The invariant after a step of a walk. -/
theorem step (h : Invariant languages c t done p) (ht : t.ProperIn languages)
    (hground : Grounded t c.scopes) (hs : Placed c.scopes t s)
    (hreads : ∀ s' ∈ done, ∀ x ∈ s.targets, x ∉ s'.reads) :
    (∃ p', (exec c s).run p = .ok () p' ∧ Invariant languages c t (done ++ [s]) p') ∨
      ∃ e, s = .fail e ∧ (exec c s).run p = .error e p := by
  have hunbound : ∀ {x m}, x ∈ s.targets → t.get? x = some m → p.tree.get? x = some m :=
    fun hx hm => h.pending hm fun s' hs' hmem => hreads s' hs' _ hx (s'.targets_subset_reads hmem)
  cases hs with
  | fail e => exact .inr ⟨e, rfl, rfl⟩
  | name hn hp hplain hin =>
    have hpn := hunbound (by simp [Step.targets]) hn
    exact .inl ⟨_, bindName_run c _ _ hpn, h.name ht hground hn hp hplain hreads⟩
  | access hn hp hb hm hin =>
    obtain ⟨k, ρ, hk, -, -⟩ := ht.half hn hp hm
    have hpk := hunbound (by simp [Step.targets]) hk
    exact .inl ⟨_, bindAccess_run c _ _ _ _ hpk, h.access ht hground hn hp hb hm hk hreads⟩

/-- The invariant after a run that succeeds. -/
theorem run {xs : List Step} (ht : t.ProperIn languages) (hground : Grounded t c.scopes)
    (hplaced : ∀ s ∈ xs, Placed c.scopes t s)
    (hpairwise : xs.Pairwise fun s s' => ∀ x ∈ s'.targets, x ∉ s.reads)
    (hrun : runSteps (exec c) xs { tree := t } = .ok () p') : Invariant languages c t xs p' := by
  refine runSteps_induction (I := Invariant languages c t) (start ht) ?_ hrun
  intro done s rest p₁ p₂ hsplit h hx _
  rw [hsplit] at hpairwise hplaced
  rcases h.step ht hground (hplaced s (by simp)) (not_mem_reads hpairwise) with ⟨p', hr, h'⟩ | ⟨e, -, hr⟩
  · rw [hr] at hx
    cases hx
    exact h'
  · rw [hr] at hx
    cases hx

/-- A run that fails leaves a proper tree behind, too, which has all nodes and the same declarations. -/
theorem kept_endState {xs : List Step} (ht : t.ProperIn languages)
    (hground : Grounded t c.scopes) (hplaced : ∀ s ∈ xs, Placed c.scopes t s)
    (hpairwise : xs.Pairwise fun s s' => ∀ x ∈ s'.targets, x ∉ s.reads) :
    (endState (runSteps (exec c) xs { tree := t })).tree.ProperIn languages ∧
      t.Extends (endState (runSteps (exec c) xs { tree := t })).tree ∧
      t.SameDeclarations (endState (runSteps (exec c) xs { tree := t })).tree := by
  refine endState_runSteps_induction (I := Invariant languages c t)
    (J := fun p => p.tree.ProperIn languages ∧ t.Extends p.tree ∧ t.SameDeclarations p.tree) (start ht)
    (fun _ _ h => ⟨h.proper, h.toExtends, h.same⟩) ?_
  intro done s rest p₁ hsplit h
  rw [hsplit] at hpairwise hplaced
  rcases h.step ht hground (hplaced s (by simp)) (not_mem_reads hpairwise) with ⟨p', hr, h'⟩ | ⟨e, -, hr⟩
  · rw [hr]
    refine ⟨⟨h'.proper, h'.toExtends, h'.same⟩, fun p₂ hp₂ => ?_⟩
    cases hp₂
    exact h'
  · rw [hr]
    exact ⟨⟨h.proper, h.toExtends, h.same⟩, fun p₂ hp₂ => by cases hp₂⟩

/-- A run without failing steps succeeds. -/
theorem exists_run {xs : List Step} (ht : t.ProperIn languages) (hground : Grounded t c.scopes)
    (hplaced : ∀ s ∈ xs, Placed c.scopes t s)
    (hpairwise : xs.Pairwise fun s s' => ∀ x ∈ s'.targets, x ∉ s.reads)
    (hfail : ∀ e, Step.fail e ∉ xs) : ∃ p', runSteps (exec c) xs { tree := t } = .ok () p' := by
  have hrun : ∃ p', runSteps (exec c) xs { tree := t } = .ok () p' ∧ Invariant languages c t xs p' := by
    refine exists_runSteps (start ht) fun done s rest p hsplit h => ?_
    rcases h.step ht hground (hplaced s (by simp [hsplit])) (not_mem_reads (hsplit ▸ hpairwise)) with
      ⟨p', hr, h'⟩ | ⟨e, rfl, -⟩
    · exact ⟨p', hr, h'⟩
    · exact absurd (by simp [hsplit]) (hfail e)
  obtain ⟨p', hp', -⟩ := hrun
  exact ⟨p', hp'⟩

/-- A run that succeeds has no failing step. -/
theorem fail_not_mem {xs : List Step} (hrun : runSteps (exec c) xs p = .ok () p') (e : ResolveError) :
    Step.fail e ∉ xs := by
  induction xs generalizing p with
  | nil => simp
  | cons s xs ih =>
    obtain ⟨p₁, hs, hxs⟩ := runSteps_cons_ok hrun
    rw [List.mem_cons, not_or]
    refine ⟨?_, ih hxs⟩
    rintro rfl
    cases hs

end Invariant
end NameResolution.Binding
