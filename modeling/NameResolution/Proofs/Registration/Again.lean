import NameResolution.Proofs.Registration.Invariant

/-!
# Registration over its own result

A tree that has been registered and bound may be registered again. The second walk does the same steps with the
same outcome and changes nothing: the records have their implicit members already, and whatever binding has
changed is no declaration and takes no part in the nesting. If the second walk treats duplicates otherwise than
the first, it may end in an error, but it still changes nothing.
-/
namespace NameResolution.Registration
open NameResolution.Tree ScopeTree

theorem allowed_of_mem_free {s : Slot} {ids : List NodeId} (h : s ∈ Slot.free ids) : s.allowed = none := by
  obtain ⟨_, -, rfl⟩ := List.mem_map.mp h
  rfl

theorem allowed_of_mem_only {s : Slot} {kinds : List NodeKind} {ids : List NodeId}
    (h : s ∈ Slot.only kinds ids) : s.allowed = some kinds := by
  obtain ⟨_, -, rfl⟩ := List.mem_map.mp h
  rfl

/-- Where only some kinds may stand, no reference may. -/
theorem reference_not_mem_allowed {p : Payload} {s : Slot} {kinds : List NodeKind} (hs : s ∈ p.slots)
    (hk : s.allowed = some kinds) : .reference ∉ kinds := by
  have hfree : ∀ {ids}, s ∉ Slot.free ids := by
    intro ids h
    rw [allowed_of_mem_free h] at hk
    cases hk
  have honly : ∀ {ks ids}, s ∈ Slot.only ks ids → kinds = ks := by
    intro ks ids h
    rw [allowed_of_mem_only h] at hk
    exact (Option.some.inj hk).symm
  cases p with
  | recordDecl =>
    rw [honly hs]
    decide
  | methodDecl | functionDecl =>
    rw [honly ((List.mem_append.mp hs).resolve_right hfree)]
    decide
  | tryStatement =>
    rw [honly ((List.mem_append.mp hs).resolve_left hfree)]
    decide
  | catchClause =>
    rw [honly ((List.mem_append.mp hs).resolve_right hfree)]
    decide
  | translationUnit | compound | declStatement | forStatement | whileStatement | ifStatement =>
    exact absurd hs hfree
  | _ => cases hs

/-- What a run over the tree `T` comes to that came to the progress `p'` before: to the same, unless it treats
duplicates otherwise and ends in an error. It leaves the tree as it is. -/
def ComesAgain (config later : Config) (T : Tree) (p' : Progress)
    (result : EStateM.Result ResolveError Progress Unit) : Prop :=
  result = .ok () { p' with tree := T } ∨
    later.duplicates ≠ config.duplicates ∧ ∃ e q, result = .error e q ∧ q.tree = T

section
variable {config later : Config} {T : Tree} {id : NodeId} {n n' : Node} {scope inner : Option ScopeId}
  {p p' : Progress}

/-- Declaring a node goes as before, unless what was dropped is an error now. -/
theorem declareIn_run_again (hlater : later.separator = config.separator) (hb : n.Becomes n')
    (hkind : ∀ s name, ∀ d ∈ p.scopes.lookup s name, T.kind? d = p.tree.kind? d)
    (hrun : (declareIn config id n scope).run p = .ok () p') :
    ComesAgain config later T p' ((declareIn later id n' scope).run { p with tree := T }) := by
  cases scope with
  | none =>
    cases hrun
    exact .inl rfl
  | some s =>
    rw [declareIn] at hrun ⊢
    rw [isDeclaration_of_becomes hb]
    by_cases hd : n.kind.isDeclaration = true
    · have hk := kind_eq_of_isDeclaration hb hd
      have hname : declaredName later.separator n' = declaredName config.separator n := by
        rw [declaredName, declaredName, Node.isRecord, Node.isRecord, hk, hb.name, hlater]
      rw [if_pos hd, declare] at hrun ⊢
      rw [hname, hk]
      by_cases hempty : declaredName config.separator n = ""
      · rw [if_pos hempty] at hrun ⊢
        cases hrun
        exact .inl rfl
      · have hholder : holder? { p with tree := T } s (declaredName config.separator n) =
            holder? p s (declaredName config.separator n) :=
          List.find?_congr fun d hd => by rw [hkind s _ d hd]
        simp only [if_neg hempty, EStateM.run_bind, EStateM.run_get, hholder] at hrun ⊢
        split at hrun
        · cases hrun
          exact .inl rfl
        · cases hpolicy : config.duplicates with
          | fatal =>
            rw [hpolicy] at hrun
            cases hrun
          | keepFirst =>
            rw [hpolicy] at hrun
            cases hrun
            cases hpolicy' : later.duplicates with
            | keepFirst => exact .inl rfl
            | fatal => exact .inr ⟨by simp [hpolicy, hpolicy'], _, _, rfl, rfl⟩
    · rw [if_neg hd] at hrun ⊢
      cases hrun
      exact .inl rfl

/-- All that matters of a configuration when a scope is opened is the separator. -/
theorem innerScope_congr (hlater : later.separator = config.separator) :
    innerScope later = innerScope config := by
  have houter : addOuter later = addOuter config := by
    funext id record scope outer
    simp only [addOuter, hlater]
  have hmembers : addImplicitMembers later = addImplicitMembers config := by
    funext id record qualified scope
    simp only [addImplicitMembers, houter]
  have henter : enterRecord later = enterRecord config := by
    funext id node record scope
    simp only [enterRecord, hlater, hmembers]
  funext id node scope
  simp only [innerScope, henter]

/-- A place that passes its check passes it again. -/
theorem checkSlot_run_again {k : Node} {slot : Slot} (hslot : slot ∈ k.payload.slots)
    (hext : p.tree.Extends T) (hrun : (checkSlot n slot).run p = .ok () p') :
    (checkSlot n' slot).run { p with tree := T } = .ok () { p with tree := T } := by
  unfold checkSlot at hrun ⊢
  cases hallowed : slot.allowed with
  | none => rfl
  | some kinds =>
    simp only [hallowed] at hrun ⊢
    cases hm : p.tree.get? slot.child with
    | none =>
      rw [run_bind_error (fetch_run_none hm)] at hrun
      cases hrun
    | some m =>
      obtain ⟨m', hm', hb⟩ := hext.node hm
      rw [run_bind_ok (fetch_run hm)] at hrun
      rw [run_bind_ok (fetch_run (p := { p with tree := T }) hm')]
      by_cases hallows : slot.allows m.kind = true
      · have hkind : m'.kind = m.kind := by
          refine hb.payload.kind_eq fun hk => reference_not_mem_allowed hslot hallowed ?_
          rw [Slot.allows, hallowed, Option.all_some, Node.kind, hk] at hallows
          exact List.contains_iff_mem.mp hallows
        rw [hkind, if_pos hallows]
        rfl
      · rw [if_neg hallows] at hrun
        cases hrun

theorem checkSlots_run_again {k : Node} (hext : p.tree.Extends T) {slots : List Slot}
    (hslots : slots ⊆ k.payload.slots) (hrun : (slots.forM (checkSlot n)).run p = .ok () p') :
    (slots.forM (checkSlot n')).run { p with tree := T } = .ok () { p with tree := T } := by
  induction slots with
  | nil => rfl
  | cons s slots ih =>
    rw [List.forM_eq_forM] at ih hrun ⊢
    rw [List.forM_cons] at hrun ⊢
    have hs := hslots (show s ∈ s :: slots by simp)
    rcases checkSlot_run n s p with hc | ⟨e, hc⟩
    · rw [run_bind_ok hc] at hrun
      rw [run_bind_ok (checkSlot_run_again (k := k) hs hext hc)]
      exact ih (fun x hx => hslots (List.mem_cons_of_mem _ hx)) hrun
    · rw [run_bind_error hc] at hrun
      cases hrun

/-- The entries of a record's implicit members are those of the earlier tree. -/
theorem implicitEntries_again {r : Record} (ht : p.tree.WellFormed) (hext : p.tree.Extends T)
    (hn : p.tree.get? id = some n) (hsup : T.Supplied config.separator id r) (s : ScopeId) :
    implicitEntries config.separator T s r = implicitEntries config.separator p.tree s r := by
  rw [implicitEntries, implicitEntries]
  congr 1
  refine List.map_congr_left fun o ho => ?_
  have hrecord : o.record ∈ p.tree.enclosingRecords id := by
    rw [← hext.enclosingRecords_eq ht hn, ← hsup.records]
    exact List.mem_map_of_mem ho
  obtain ⟨m, hm⟩ := ht.exists_of_mem_ancestors (List.mem_of_mem_filter hrecord)
  rw [outerEntry, outerEntry, hext.qualifiedName_eq ht config.separator hm]

/-- Entering a record that has its implicit members goes as it went when it got them. -/
theorem enterRecord_run_again {r r' : Record} {s : ScopeId} (hp : p.tree.Proper config.separator)
    (hT : T.WellFormed) (hext : p.tree.Extends T) (hn : p.tree.get? id = some n)
    (hr : n.payload = .recordDecl r) (hn' : T.get? id = some n') (hr' : n'.payload = .recordDecl r')
    (hsup : T.Supplied config.separator id r') (hsame : p'.tree.get? id = some n')
    (hrun : (enterRecord config id n r scope).run p = .ok s p') :
    (enterRecord config id n' r' scope).run { p with tree := T } = .ok s { p' with tree := T } := by
  have hq := hext.qualifiedName_eq hp.toWellFormed config.separator hn
  let opened (t : Tree) : Progress :=
    { p with
      tree := t
      scopes := ((p.scopes.nameRecord (p.tree.qualifiedName config.separator id) id).push
        .record id scope).2 }
  have hsize : (⟨p.scopes.size⟩ : ScopeId).index < (opened T).scopes.size := by
    simp only [opened, size_push]
    exact Nat.lt_succ_self _
  have hopen : (enterRecord config id n r scope).run p =
      (do
        n.payload.slots.forM (checkSlot n)
        addImplicitMembers config id r (p.tree.qualifiedName config.separator id) ⟨p.scopes.size⟩
        pure (⟨p.scopes.size⟩ : ScopeId) : Walk ScopeId).run (opened p.tree) := rfl
  have hopen' : (enterRecord config id n' r' scope).run { p with tree := T } =
      (do
        n'.payload.slots.forM (checkSlot n')
        addImplicitMembers config id r' (T.qualifiedName config.separator id) ⟨p.scopes.size⟩
        pure (⟨p.scopes.size⟩ : ScopeId) : Walk ScopeId).run (opened T) := by
    simp only [opened, ← hq]
    rfl
  have hslots : n'.payload.slots = n.payload.slots := by
    obtain ⟨m, hm, hb⟩ := hext.node hn
    rw [hn'] at hm
    cases hm
    exact hb.payload.slots_eq
  obtain ⟨r'', t', hadd, hsupplies⟩ := @addImplicitMembers_run config id ⟨p.scopes.size⟩ (opened p.tree) _ n r
    hp hn hr hsize
  rcases checkSlots_run n n.payload.slots (opened p.tree) with hc | ⟨e, hc⟩
  · rw [hopen, run_bind_ok hc, run_bind_ok hadd, EStateM.run_pure] at hrun
    cases hrun
    -- The record is as it was when its members were added.
    have hnode : n' = { n with payload := .recordDecl r'' } :=
      Option.some.inj (hsame.symm.trans (hsupplies.self hn hr))
    obtain rfl : r'' = r' := by
      rw [hnode] at hr'
      exact Payload.recordDecl.inj hr'
    have hc' : (n'.payload.slots.forM (checkSlot n')).run (opened T) = .ok () (opened T) :=
      hslots ▸ checkSlots_run_again (p := opened p.tree) hext (List.Subset.refl _) hc
    rw [hopen', run_bind_ok hc', run_bind_ok
      (addImplicitMembers_run_supplied (p := opened T) hT hn' hr' hsup hsize), EStateM.run_pure]
    simp only [opened, implicitEntries_again hp.toWellFormed hext hn hsup]
  · rw [hopen, run_bind_error hc] at hrun
    cases hrun

/-- Opening a scope goes as before. -/
theorem innerScope_run_again (hp : p.tree.Proper config.separator) (hT : T.WellFormed)
    (hext : p.tree.Extends T) (hn : p.tree.get? id = some n) (hn' : T.get? id = some n')
    (hsup : ∀ r', n'.payload = .recordDecl r' → T.Supplied config.separator id r')
    (hsame : n'.kind = .recordDecl → p'.tree.get? id = some n')
    (hrun : (innerScope config id n scope).run p = .ok inner p') :
    (innerScope config id n' scope).run { p with tree := T } = .ok inner { p' with tree := T } := by
  obtain ⟨m, hm, hb⟩ := hext.node hn
  rw [hn'] at hm
  cases hm
  have hopens' := hb.payload.opens?_eq
  have hrecord : n'.kind = .recordDecl ↔ n.kind = .recordDecl := hb.payload.kind_recordDecl_iff
  rcases cases_of_innerScope_run hrun with ⟨r, s, hr, rfl, henter⟩ | ⟨hopens, rfl, rfl⟩ | ⟨kind, hopens, hk, rfl, rfl⟩
  · have hk' : n'.kind = .recordDecl := hrecord.mpr (by rw [Node.kind, hr]; rfl)
    obtain ⟨r', hr'⟩ := Node.exists_record hk'
    exact innerScope_run_of_record config scope hr'
      (enterRecord_run_again hp hT hext hn hr hn' hr' (hsup r' hr') (hsame hk') henter)
  · exact innerScope_run_of_transparent config _ _ (hopens'.trans hopens)
  · exact innerScope_run_of_plain config scope { p with tree := T } (hopens'.trans hopens) (hk ∘ hrecord.mp)

/-- A step goes as before, unless it finds a duplicate that is an error now. -/
theorem exec_run_again {x : Step} (hlater : later.separator = config.separator)
    (hp : p.tree.Proper config.separator) (hT : T.WellFormed) (hext : p.tree.Extends T)
    (hkind : ∀ s name, ∀ d ∈ p.scopes.lookup s name, T.kind? d = p.tree.kind? d)
    (hslot : ∀ owner slot, x = .check owner slot →
      ∃ n, p.tree.get? owner = some n ∧ slot ∈ n.payload.slots)
    (hsup : ∀ id n r, x = .enter id → T.get? id = some n → n.payload = .recordDecl r →
      T.Supplied config.separator id r)
    (hsame : ∀ id n, x = .enter id → T.get? id = some n → n.kind = .recordDecl →
      p'.tree.get? id = some n)
    (hrun : (exec config x).run p = .ok () p') :
    ComesAgain config later T p' ((exec later x).run { p with tree := T }) := by
  cases x with
  | check owner slot =>
    obtain ⟨n, hn, hs⟩ := hslot owner slot rfl
    obtain ⟨n', hn', -⟩ := hext.node hn
    rw [exec, run_bind_ok (fetch_run hn)] at hrun
    rw [exec, run_bind_ok (fetch_run (p := { p with tree := T }) hn')]
    rcases checkSlot_run n slot p with hc | ⟨e, hc⟩
    · rw [hc] at hrun
      cases hrun
      exact .inl (checkSlot_run_again hs hext hc)
    · rw [hc] at hrun
      cases hrun
  | enter id =>
    obtain ⟨n, q, inner, hn, hd, hi⟩ := parts_of_enter_run hrun
    obtain ⟨n', hn', hb⟩ := hext.node hn
    have hq : q.tree = p.tree := (Declares.of_run hd).tree_eq
    have hscope : T.enclosingScope? p.scopes id = p.tree.enclosingScope? p.scopes id :=
      hext.enclosingScope?_eq hp.toWellFormed hn p.scopes
    rw [enter_run_eq (p := { p with tree := T }) hn', hscope]
    rcases declareIn_run_again hlater hb hkind hd with hd' | ⟨hpolicy, e, q', hd', hq'⟩
    · have hi' := innerScope_run_again (hq ▸ hp) hT (hq ▸ hext) (hq ▸ hn) hn'
        (fun r hr => hsup id n' r rfl hn' hr) (hsame id n' rfl hn') hi
      rw [run_bind_ok hd', innerScope_congr hlater, run_bind_ok hi']
      exact .inl rfl
    · exact .inr ⟨hpolicy, e, q', run_bind_error hd' _, hq'⟩

end

/-- The walk does the same steps over a tree that extends the one it knows. -/
theorem steps_again {t T : Tree} {depth depth' : Nat} {id : NodeId} {n : Node} (ht : t.WellFormed)
    (hT : T.WellFormed) (hext : t.Extends T) (hn : t.get? id = some n)
    (hdepth : t.size < depth + (t.ancestors id).length)
    (hdepth' : T.size < depth' + (T.ancestors id).length) : steps T depth' id = steps t depth id := by
  induction depth generalizing id n depth' with
  | zero =>
    have := ht.length_ancestors_lt hn
    omega
  | succ depth ih =>
    obtain ⟨n', hn', hb⟩ := hext.node hn
    cases depth' with
    | zero =>
      have := hT.length_ancestors_lt hn'
      omega
    | succ depth' =>
      rw [steps, steps, hn, hn']
      simp only [hb.payload.slots_eq]
      congr 1
      refine List.flatMap_congr fun s hs => ?_
      have hchild := Payload.child_mem_children hs
      obtain ⟨m, hm, -⟩ := ht.parent_of_child hn hchild
      have hup := ht.ancestors_of_child hn hchild
      rw [ih hm ?_ ?_]
      · rw [hup, List.length_cons]
        omega
      · rw [hext.ancestors_eq ht hm, hup, List.length_cons, ← hext.ancestors_eq ht hn]
        omega

/-- Another step goes again after a run that has come again. -/
theorem ComesAgain.append {config later : Config} {T : Tree} {done : List Step} {x : Step} {p p' : Progress}
    (h : ComesAgain config later T p (runSteps (exec later) done { tree := T }))
    (hx : ComesAgain config later T p' ((exec later x).run { p with tree := T })) :
    ComesAgain config later T p' (runSteps (exec later) (done ++ [x]) { tree := T }) := by
  rw [runSteps_append]
  rcases h with h | ⟨hpolicy, e, q, h, hq⟩
  · rw [h]
    simpa only [runSteps_singleton] using hx
  · rw [h]
    exact .inr ⟨hpolicy, e, q, rfl, hq⟩

section
variable {config later : Config} {t T : Tree} {depth : Nat} {root : NodeId} {k : Node} {p' : Progress}

/-- Each step of a run goes again over a tree that the run, and binding after it, has led to. -/
theorem step_again {done rest pending : List Step} {x : Step} {p p₂ : Progress}
    (hlater : later.separator = config.separator) (ht : t.Proper config.separator) (hT : T.WellFormed)
    (hk : t.get? root = some k) (hroot : ¬ IsImplicitField t root) (hreg : Registered config.separator T p'.scopes)
    (hext : p'.tree.Extends T) (hsame : p'.tree.SameDeclarations T)
    (hend : Invariant config.separator t (done ++ x :: rest) p')
    (h : Invariant config.separator t done p) (hsplit : steps t depth root = done ++ x :: rest ++ pending)
    (hx : (exec config x).run p = .ok () p₂) (hrest : runSteps (exec config) rest p₂ = .ok () p') :
    ComesAgain config later T p₂ ((exec later x).run { p with tree := T }) := by
  rw [List.append_assoc, List.cons_append] at hsplit
  have h₂ := h.step ht hk hroot hsplit hx
  have hentered : ∀ {id}, x = .enter id → ∃ m, t.get? id = some m := by
    rintro id rfl
    have hid : Step.enter id ∈ steps t depth root := hsplit ▸ by simp
    exact exists_of_enter_mem ht.toWellFormed hk hid
  have hextT : p.tree.Extends T := by
    obtain ⟨-, hext₂, -⟩ := exec_keeps h.proper rfl x
    obtain ⟨-, hext', -⟩ := runSteps_keeps h₂.proper rfl rest
    rw [hx] at hext₂
    rw [hrest] at hext'
    exact (hext₂.trans hext').trans hext
  refine exec_run_again hlater h.proper hT hextT ?_ ?_ ?_ ?_ hx
  · intro s name d hd
    obtain ⟨n, hn, hdecl, -⟩ := h.registered.entry (mem_lookup_iff.mp hd)
    obtain ⟨n', hn', hb⟩ := hextT.node hn
    simp only [kind?, hn, hn', Option.map_some, kind_eq_of_isDeclaration hb hdecl]
  · rintro owner slot rfl
    have hcheck : Step.check owner slot ∈ steps t depth root := hsplit ▸ by simp
    obtain ⟨n, hn, hs⟩ := (check_mem_steps_iff.mp hcheck).2
    obtain ⟨n', hn', hb⟩ := h.toExtends.node hn
    exact ⟨n', hn', hb.payload.slots_eq ▸ hs⟩
  · intro id n r hid hn hr
    obtain ⟨m, hm⟩ := hentered hid
    obtain ⟨m', hm', hb⟩ := (h.toExtends.trans hextT).node hm
    rw [hn] at hm'
    cases hm'
    have hopens : m.payload.opens? = some .record := by
      rw [← hb.payload.opens?_eq, hr]
      rfl
    obtain ⟨s, hs⟩ := Option.isSome_iff_exists.mp (hend.scope_opened (by simp [hid]) hm hopens)
    exact hreg.supplied hn hr hs
  · -- A record is entered once, so it is what it will be.
    intro id n hid hn hkind
    obtain ⟨m, hm⟩ := hentered hid
    obtain ⟨m', hm', -⟩ := h₂.toExtends.node hm
    have hmem : Step.enter id ∉ rest := by
      intro hmem
      have hpairwise := hsplit ▸ steps_pairwise ht.toWellFormed depth root
      have hbefore := (List.pairwise_cons.mp (List.pairwise_append.mp hpairwise).2.1).1 _ (List.mem_append_left _ hmem)
      exact hbefore id id hid rfl (.refl t id)
    have hkept := runSteps_get?_eq h₂.proper rfl hmem hm' hrest
    rw [(hsame (by rw [hkind]; rfl)).mp hn] at hkept
    cases hkept
    exact hm'

/-- Registration over a tree that it has been over, and binding after it, does again what it did, or it ends in an
error since duplicates are treated otherwise. It need not have come to its end. -/
theorem rerun {done pending : List Step} (hlater : later.separator = config.separator)
    (ht : t.Proper config.separator) (hT : T.WellFormed) (hk : t.get? root = some k)
    (hroot : ¬ IsImplicitField t root) (hreg : Registered config.separator T p'.scopes)
    (hext : p'.tree.Extends T) (hsame : p'.tree.SameDeclarations T)
    (hsplit : steps t depth root = done ++ pending)
    (hrun : runSteps (exec config) done { tree := t } = .ok () p') :
    ComesAgain config later T p' (runSteps (exec later) done { tree := T }) := by
  have hend := Invariant.run ht hk hroot hsplit hrun
  refine (runSteps_induction (I := fun before p => Invariant config.separator t before p ∧
    ComesAgain config later T p (runSteps (exec later) before { tree := T })) ⟨.start ht, .inl rfl⟩ ?_ hrun).2
  rintro before x rest p p₂ rfl ⟨h, hagain⟩ hx hrest
  have hstep := List.append_assoc before (x :: rest) pending ▸ hsplit
  exact ⟨h.step ht hk hroot hstep hx, hagain.append
    (step_again hlater ht hT hk hroot hreg hext hsame hend h hsplit hx hrest)⟩

end

end NameResolution.Registration
