import NameResolution.Proofs.Registration.ImplicitMembers

/-!
# Registration as a list of steps

The order in which a walk enters nodes and checks places does not depend on what it registers. It is laid
out beforehand as a list of steps, and each step finds the scope around its node by the chain of parents
instead of having it handed down. That the two ways to find a scope agree is the theorem of this file.
-/
namespace NameResolution

namespace Payload

/-- What is part of the nesting of a node, in the order in which it stands below the node. -/
theorem slots_sublist (p : Payload) : (p.slots.map Slot.child).Sublist p.children := by
  cases p <;>
    simp only [slots, children, List.map_append, Slot.map_child_free, Slot.map_child_only, List.map_nil,
      List.append_assoc, List.nil_sublist, List.Sublist.refl, List.sublist_append_left]
  case forStatement i c n b =>
    refine (List.Sublist.refl _).append ?_
    exact (List.sublist_append_right _ _).trans (List.sublist_append_right _ _)
  case whileStatement c b => exact List.sublist_append_right _ _
  case ifStatement d c a b =>
    exact (List.Sublist.refl _).append (List.sublist_append_right _ _)

end Payload

namespace Registration
open NameResolution.Tree

inductive Step where
  | enter (id : NodeId)
  | check (owner : NodeId) (slot : Slot)

/-- The steps for a node and what nests in it, to the given depth. -/
def steps (t : Tree) : Nat → NodeId → List Step
  | 0, _ => []
  | depth + 1, id =>
    .enter id ::
      match t.get? id with
      | none => []
      | some n => n.payload.slots.flatMap fun s => .check id s :: steps t depth s.child

def exec (config : Config) : Step → Walk Unit
  | .enter id => do
    let node ← fetch id
    let p ← get
    let scope := p.tree.enclosingScope? p.scopes id
    declareIn config id node scope
    let _ ← innerScope config id node scope
  | .check owner slot => do
    let node ← fetch owner
    checkSlot node slot

/-- What entering a node leads to. -/
structure Enters (config : Config) (id : NodeId) (n : Node) (p p' : Progress) : Prop where
  node : p.tree.get? id = some n
  effect : ∃ p₁ inner, Declares config id n (p.tree.enclosingScope? p.scopes id) p p₁ ∧
    Opens config id n (p.tree.enclosingScope? p.scopes id) p₁ inner p'

section
variable {config : Config} {languages : Set String} {id x : NodeId} {n : Node} {p p' : Progress}

theorem enter_run_eq (hn : p.tree.get? id = some n) :
    (exec config (.enter id)).run p =
      (do declareIn config id n (p.tree.enclosingScope? p.scopes id)
          let _ ← innerScope config id n (p.tree.enclosingScope? p.scopes id)).run p := by
  rw [exec, run_bind_ok (fetch_run hn), run_bind_ok (EStateM.run_get ..)]

theorem enter_run_of_parts {p₁ : Progress} {inner : Option ScopeId} (hn : p.tree.get? id = some n)
    (hd : (declareIn config id n (p.tree.enclosingScope? p.scopes id)).run p = .ok () p₁)
    (hi : (innerScope config id n (p.tree.enclosingScope? p.scopes id)).run p₁ = .ok inner p') :
    (exec config (.enter id)).run p = .ok () p' := by
  rw [enter_run_eq hn, run_bind_ok hd]
  exact run_bind_ok hi _

/-- What entering a node comes down to. -/
theorem parts_of_enter_run (h : (exec config (.enter id)).run p = .ok () p') :
    ∃ n p₁ inner, p.tree.get? id = some n ∧
      (declareIn config id n (p.tree.enclosingScope? p.scopes id)).run p = .ok () p₁ ∧
      (innerScope config id n (p.tree.enclosingScope? p.scopes id)).run p₁ = .ok inner p' := by
  obtain ⟨n, q, hfetch, -⟩ := exists_of_run_bind_ok h
  obtain ⟨hn, rfl⟩ := get?_of_fetch_run hfetch
  rw [enter_run_eq hn] at h
  obtain ⟨_, p₁, hd, h⟩ := exists_of_run_bind_ok h
  obtain ⟨inner, p₂, hi, hdone⟩ := exists_of_run_bind_ok h
  cases hdone
  exact ⟨n, p₁, inner, hn, hd, hi⟩

/-- Entering a node fails in declaring it or in opening its scope. -/
theorem cases_of_enter_error {e : ResolveError} (hn : p.tree.get? id = some n)
    (h : (exec config (.enter id)).run p = .error e p') :
    (declareIn config id n (p.tree.enclosingScope? p.scopes id)).run p = .error e p' ∨
      ∃ p₁, (declareIn config id n (p.tree.enclosingScope? p.scopes id)).run p = .ok () p₁ ∧
        (innerScope config id n (p.tree.enclosingScope? p.scopes id)).run p₁ = .error e p' := by
  rw [enter_run_eq hn] at h
  refine (cases_of_run_bind_error h).imp_right ?_
  rintro ⟨_, p₁, hd, h⟩
  rcases cases_of_run_bind_error h with hi | ⟨inner, p₂, -, hdone⟩
  · exact ⟨p₁, hd, hi⟩
  · cases hdone

theorem Enters.of_run (h : p.tree.ProperIn languages) (hx : (exec config (.enter id)).run p = .ok () p') :
    ∃ n, Enters config id n p p' := by
  obtain ⟨n, p₁, inner, hn, hd, hi⟩ := parts_of_enter_run hx
  have hdec := Declares.of_run hd
  have htree := hdec.tree_eq
  exact ⟨n, hn, p₁, inner, hdec, .of_run (htree ▸ h) (htree ▸ hn) hi⟩

theorem check_step_run (p : Progress) (owner : NodeId) (slot : Slot) :
    (exec config (.check owner slot)).run p = .ok () p ∨
      ∃ e, (exec config (.check owner slot)).run p = .error e p := by
  cases hn : p.tree.get? owner with
  | none => exact .inr ⟨_, run_bind_error (fetch_run_none hn) _⟩
  | some n =>
    rw [exec, run_bind_ok (fetch_run hn)]
    exact checkSlot_run n slot p

/-- A step that succeeds is a check, which changes nothing, or enters a node. -/
theorem exec_ok_cases {x : Step} (h : p.tree.ProperIn languages) (hx : (exec config x).run p = .ok () p') :
    (∃ owner slot, x = .check owner slot ∧ p' = p) ∨ ∃ id n, x = .enter id ∧ Enters config id n p p' := by
  cases x with
  | check owner slot =>
    rcases check_step_run p owner slot with hr | ⟨e, hr⟩
    · rw [hr] at hx
      cases hx
      exact .inl ⟨owner, slot, rfl, rfl⟩
    · rw [hr] at hx
      cases hx
  | enter id =>
    obtain ⟨n, he⟩ := Enters.of_run h hx
    exact .inr ⟨id, n, rfl, he⟩

/-- A step that fails leaves the tree as it is. -/
theorem tree_eq_of_exec_error {x : Step} {e : ResolveError} (h : p.tree.ProperIn languages)
    (hx : (exec config x).run p = .error e p') : p'.tree = p.tree := by
  cases x with
  | check owner slot =>
    rcases check_step_run p owner slot with hr | ⟨e, hr⟩
    · rw [hr] at hx
      cases hx
    · rw [hr] at hx
      cases hx
      rfl
  | enter id =>
    cases hn : p.tree.get? id with
    | none =>
      rw [exec, run_bind_error (fetch_run_none hn)] at hx
      cases hx
      rfl
    | some n =>
      rcases cases_of_enter_error hn hx with hd | ⟨p₁, hd, hi⟩
      · rw [eq_of_declareIn_error hd]
      · have htree := (Declares.of_run hd).tree_eq
        exact (tree_eq_of_innerScope_error (htree ▸ h) (htree ▸ hn) hi).trans htree

namespace Enters

theorem toExtends (h : Enters config id n p p') : p.tree.Extends p'.tree := by
  obtain ⟨p₁, inner, hd, ho⟩ := h.effect
  exact hd.tree_eq ▸ ho.toExtends (hd.tree_eq ▸ h.node)

theorem keepsAllButRecords (h : Enters config id n p p') : p.tree.KeepsAllButRecords p'.tree := by
  obtain ⟨p₁, inner, hd, ho⟩ := h.effect
  exact hd.tree_eq ▸ ho.keepsAllButRecords (hd.tree_eq ▸ h.node)

theorem properIn (h : Enters config id n p p') (ht : p.tree.ProperIn languages)
    (hlanguage : config.separator ∈ languages) : p'.tree.ProperIn languages := by
  obtain ⟨p₁, inner, hd, ho⟩ := h.effect
  exact ho.properIn (hd.tree_eq ▸ ht) hlanguage (hd.tree_eq ▸ h.node)

theorem kept (h : Enters config id n p p') {m : Node} (hx : x ≠ id) (hm : p.tree.get? x = some m) :
    p'.tree.get? x = some m := by
  obtain ⟨p₁, inner, hd, ho⟩ := h.effect
  exact ho.kept (hd.tree_eq ▸ h.node) hx (hd.tree_eq ▸ hm)

theorem scopeOf?_eq (h : Enters config id n p p') (hx : x ≠ id) :
    p'.scopes.scopeOf? x = p.scopes.scopeOf? x := by
  obtain ⟨p₁, inner, hd, ho⟩ := h.effect
  rw [ho.scopeOf?_eq hx, ScopeTree.scopeOf?_congr hd.scopes_eq]

theorem get?_cases (h : Enters config id n p p') {s : ScopeId} {sc : Scope}
    (hs : p'.scopes.get? s = some sc) :
    p.scopes.get? s = some sc ∨ sc.owner = id ∧ n.payload.opens? = some sc.kind := by
  obtain ⟨p₁, inner, hd, ho⟩ := h.effect
  exact ScopeTree.get?_congr hd.scopes_eq s ▸ ho.get?_cases hs

theorem isSome_scopeOf? (h : Enters config id n p p') {kind : ScopeKind} (hk : n.payload.opens? = some kind) :
    (p'.scopes.scopeOf? id).isSome := by
  obtain ⟨p₁, inner, hd, ho⟩ := h.effect
  exact ho.isSome_scopeOf? hk

/-- An entry is an old one, the node itself, or an implicit member of the node. -/
theorem entry_cases (h : Enters config id n p p') {e : Entry} (he : e ∈ p'.scopes.entries) :
    e ∈ p.scopes.entries ∨ e.declaration = id ∧ n.kind.isDeclaration = true ∨
      ∃ name typeName, p'.tree.get? e.declaration = some (implicitNode e.declaration id name typeName) := by
  obtain ⟨p₁, inner, hd, ho⟩ := h.effect
  rcases ho.entry_cases he with he | himplicit
  · rcases hd.entry_cases (fun s hs => lt_size_of_enclosingScope? hs) he with he | hself
    · exact .inl he
    · exact .inr (.inl hself)
  · exact .inr (.inr himplicit)

/-- A record that is entered has its implicit members. -/
theorem exists_supplied (h : Enters config id n p p') {m : Node} {r : Record} (hm : p'.tree.get? id = some m)
    (hr : m.payload = .recordDecl r) : ∃ earlier, p'.tree.Supplied earlier id r := by
  obtain ⟨p₁, inner, hd, ho⟩ := h.effect
  have hn : p₁.tree.get? id = some n := hd.tree_eq ▸ h.node
  cases ho with
  | transparent hopens | plain hopens =>
    rw [hn] at hm
    cases hm
    simp_all [Payload.opens?, Node.kind, Payload.kind]
  | record hp hsup =>
    rw [hsup.self hn hp] at hm
    cases hm
    cases hr
    exact hsup.exists_supplied

/-- The other records stay as they are. -/
theorem record_kept (h : Enters config id n p p') (hx : x ≠ id) {m : Node} {r : Record}
    (hm : p'.tree.get? x = some m) (hr : m.payload = .recordDecl r) : p.tree.get? x = some m := by
  obtain ⟨p₁, inner, hd, ho⟩ := h.effect
  have hn : p₁.tree.get? id = some n := hd.tree_eq ▸ h.node
  rw [← hd.tree_eq]
  cases ho with
  | transparent | plain => exact hm
  | record hp hsup =>
    rcases hsup.only hn hp hx hm with hm' | ⟨-, hf⟩
    · exact hm'
    · obtain ⟨_, hsupplied⟩ := hsup.exists_supplied
      obtain ⟨_, _, hf⟩ := hsupplied.implicit hf
      rw [hm] at hf
      cases hf
      cases hr

/-- A node that is dropped is not entered. -/
theorem duplicate_cases (h : Enters config id n p p') {d : Duplicate} (hd : d ∈ p'.duplicates) :
    d ∈ p.duplicates ∨ d.repeated = id ∧ ∀ e ∈ p'.scopes.entries, e ∈ p.scopes.entries ∨
      ∃ name typeName, p'.tree.get? e.declaration = some (implicitNode e.declaration id name typeName) := by
  obtain ⟨p₁, inner, hdec, ho⟩ := h.effect
  rw [ho.duplicates_eq] at hd
  rcases hdec.duplicate_cases hd with hold | ⟨heq, hsame⟩
  · exact .inl hold
  · exact .inr ⟨heq, fun e he => hsame ▸ ho.entry_cases he⟩

end Enters

/-- A relation between trees that holds where nothing changes, and that the entering of a node keeps to, holds across
every step, whether it succeeds or fails. -/
theorem exec_relates {R : Tree → Tree → Prop} (h : p.tree.ProperIn languages) (same : R p.tree p.tree)
    (enter : ∀ {id n q}, Enters config id n p q → R p.tree q.tree) (x : Step) :
    R p.tree (endState ((exec config x).run p)).tree := by
  cases hx : (exec config x).run p with
  | error e q =>
    rw [endState_error, tree_eq_of_exec_error h hx]
    exact same
  | ok _ q =>
    rw [endState_ok]
    rcases exec_ok_cases h hx with ⟨-, -, -, rfl⟩ | ⟨id, n, -, he⟩
    · exact same
    · exact enter he

/-- What every step keeps, whether it succeeds or fails. -/
theorem exec_keeps (h : p.tree.ProperIn languages) (hlanguage : config.separator ∈ languages) (x : Step) :
    (endState ((exec config x).run p)).tree.ProperIn languages ∧
      p.tree.Extends (endState ((exec config x).run p)).tree ∧
      p.tree.KeepsAllButRecords (endState ((exec config x).run p)).tree :=
  exec_relates (R := fun t t' => t'.ProperIn languages ∧ t.Extends t' ∧ t.KeepsAllButRecords t') h
    ⟨h, .refl _, KeepsAllButRecords.refl _⟩
    (fun he => ⟨he.properIn h hlanguage, he.toExtends, he.keepsAllButRecords⟩) x

/-- What a run of steps keeps. -/
theorem runSteps_keeps (h : p.tree.ProperIn languages) (hlanguage : config.separator ∈ languages)
    (xs : List Step) :
    (endState (runSteps (exec config) xs p)).tree.ProperIn languages ∧
      p.tree.Extends (endState (runSteps (exec config) xs p)).tree ∧
      p.tree.KeepsAllButRecords (endState (runSteps (exec config) xs p)).tree := by
  refine endState_runSteps (I := fun q : Progress => q.tree.ProperIn languages ∧ p.tree.Extends q.tree ∧
    p.tree.KeepsAllButRecords q.tree) ?_ ⟨h, .refl _, KeepsAllButRecords.refl _⟩
  intro x _ q ⟨hq, hext, hkeep⟩
  obtain ⟨hq', hext', hkeep'⟩ := exec_keeps hq hlanguage x
  exact ⟨hq', hext.trans hext', hkeep.trans hkeep'⟩

/-- What entering other nodes keeps, a run that does not enter `x` keeps. -/
theorem runSteps_induction_of_not_mem {I : Progress → Prop} {xs : List Step}
    (h : p.tree.ProperIn languages) (hlanguage : config.separator ∈ languages) (hx : Step.enter x ∉ xs)
    (hI : I p)
    (hstep : ∀ {id n q q'}, x ≠ id → Enters config id n q q' → I q → I q')
    (hrun : runSteps (exec config) xs p = .ok () p') : I p' := by
  induction xs generalizing p with
  | nil =>
    cases hrun
    exact hI
  | cons y xs ih =>
    obtain ⟨p₁, hy, hxs⟩ := runSteps_cons_ok hrun
    have hkeeps := (exec_keeps h hlanguage y).1
    rw [hy] at hkeeps
    refine ih hkeeps (fun hmem => hx (List.mem_cons_of_mem _ hmem)) ?_ hxs
    rcases exec_ok_cases h hy with ⟨-, -, -, rfl⟩ | ⟨id, n, rfl, he⟩
    · exact hI
    · exact hstep (fun heq => hx (by simp [heq])) he hI

/-- Only entering a node can change its scope. -/
theorem runSteps_scopeOf?_eq {xs : List Step} (h : p.tree.ProperIn languages)
    (hlanguage : config.separator ∈ languages) (hx : Step.enter x ∉ xs)
    (hrun : runSteps (exec config) xs p = .ok () p') :
    p'.scopes.scopeOf? x = p.scopes.scopeOf? x :=
  runSteps_induction_of_not_mem (I := fun q => q.scopes.scopeOf? x = p.scopes.scopeOf? x) h hlanguage hx rfl
    (fun hne he hq => (he.scopeOf?_eq hne).trans hq) hrun

/-- Only entering a node can change it. -/
theorem runSteps_get?_eq {xs : List Step} {m : Node} (h : p.tree.ProperIn languages)
    (hlanguage : config.separator ∈ languages) (hx : Step.enter x ∉ xs) (hm : p.tree.get? x = some m)
    (hrun : runSteps (exec config) xs p = .ok () p') : p'.tree.get? x = some m :=
  runSteps_induction_of_not_mem (I := fun q => q.tree.get? x = some m) h hlanguage hx hm
    (fun hne he hq => he.kept hne hq) hrun

end

section
variable {t : Tree} {id x owner : NodeId} {n : Node} {s : Slot} {depth : Nat}

theorem enter_mem_steps_succ :
    Step.enter x ∈ steps t (depth + 1) id ↔
      x = id ∨ ∃ n, t.get? id = some n ∧ ∃ s ∈ n.payload.slots, Step.enter x ∈ steps t depth s.child := by
  rw [steps, List.mem_cons, Step.enter.injEq]
  cases hn : t.get? id with
  | none => simp
  | some n => simp [List.mem_flatMap]

/-- The places of a node are checked if it is entered. -/
theorem check_mem_steps_iff :
    Step.check x s ∈ steps t depth id ↔
      Step.enter x ∈ steps t depth id ∧ ∃ n, t.get? x = some n ∧ s ∈ n.payload.slots := by
  induction depth generalizing id with
  | zero => simp [steps]
  | succ depth ih =>
    rw [enter_mem_steps_succ, steps]
    cases hn : t.get? id with
    | none =>
      simp only [List.mem_cons, reduceCtorEq, List.not_mem_nil, or_self, false_and, exists_false, or_false,
        false_iff, not_and]
      rintro rfl ⟨n, hn', -⟩
      rw [hn] at hn'
      cases hn'
    | some n =>
      simp only [List.mem_cons, reduceCtorEq, List.mem_flatMap, Step.check.injEq, false_or, Option.some.injEq,
        exists_eq_left']
      constructor
      · rintro ⟨s', hs', ⟨rfl, rfl⟩ | hx⟩
        · exact ⟨.inl rfl, n, hn, hs'⟩
        · obtain ⟨hx, hslot⟩ := ih.mp hx
          exact ⟨.inr ⟨s', hs', hx⟩, hslot⟩
      · rintro ⟨rfl | ⟨s', hs', hx⟩, hslot⟩
        · obtain ⟨m, hm, hs⟩ := hslot
          rw [hn] at hm
          cases hm
          exact ⟨s, hs, .inl ⟨rfl, rfl⟩⟩
        · exact ⟨s', hs', .inr (ih.mpr ⟨hx, hslot⟩)⟩

theorem below_of_enter_mem (ht : t.WellFormed) (hx : Step.enter x ∈ steps t depth id) :
    t.Below id x := by
  induction depth generalizing id with
  | zero => simp [steps] at hx
  | succ depth ih =>
    rcases enter_mem_steps_succ.mp hx with rfl | ⟨n, hn, s, hs, hx⟩
    · exact .refl t x
    · exact ht.below_of_child hn (Payload.child_mem_children hs) (ih hx)

theorem nodup_slots (ht : t.WellFormed) (hn : t.get? id = some n) :
    (n.payload.slots.map Slot.child).Nodup :=
  (ht.nodup_children hn).sublist n.payload.slots_sublist

theorem checkSlot_of_becomes {n' : Node} (hb : n.Becomes n') (hs : s ∈ n.payload.slots) :
    checkSlot n' s = checkSlot n s := by
  refine checkSlot_congr (hb.payload.kind_eq fun hk => ?_) hb.region s
  obtain ⟨_, _, _, _, payload⟩ := n
  cases payload with
  | reference r => cases hs
  | _ => cases hk

/-- The walk over the places of a node does the steps for them, if the walks below do. -/
theorem slots_run {config : Config} {languages : Set String} {inner : Option ScopeId} {k : Node}
    (ht : t.WellFormed) (hlanguage : config.separator ∈ languages) (hn : t.get? owner = some n)
    (hk : n.Becomes k)
    (ih : ∀ c p m, t.get? c = some m → c ∈ n.children → t.Extends p.tree →
      p.tree.ProperIn languages → inner = t.enclosingScope? p.scopes c →
      (∀ x, t.Below c x → p.scopes.scopeOf? x = none) →
      (visit config depth c inner).run p = runSteps (exec config) (steps t depth c) p)
    {slots : List Slot} (hslots : slots.Sublist n.payload.slots) {p : Progress}
    (hext : t.Extends p.tree) (hp : p.tree.ProperIn languages)
    (hinner : inner = (p.scopes.scopeOf? owner).or (t.enclosingScope? p.scopes owner))
    (hnew : ∀ s ∈ slots, ∀ x, t.Below s.child x → p.scopes.scopeOf? x = none) :
    (slots.forM fun s => do
        checkSlot k s
        visit config depth s.child inner).run p =
      runSteps (exec config)
        (slots.flatMap fun s => .check owner s :: steps t depth s.child) p := by
  induction slots generalizing p with
  | nil => rfl
  | cons s slots ih' =>
    have hchild : ∀ s' ∈ s :: slots, s'.child ∈ n.children :=
      fun s' hs' => Payload.child_mem_children (hslots.subset hs')
    have hs := hchild s (by simp)
    obtain ⟨m, hm, -⟩ := ht.parent_of_child hn hs
    obtain ⟨n', hn', hb⟩ := hext.node hn
    have hsn : s ∈ n.payload.slots := hslots.subset (by simp)
    have hexec : (exec config (.check owner s)).run p = (checkSlot k s).run p := by
      rw [exec, run_bind_ok (fetch_run hn'), checkSlot_of_becomes hb hsn, checkSlot_of_becomes hk hsn]
    rw [List.forM_eq_forM] at ih' ⊢
    rw [List.forM_cons, List.flatMap_cons, List.cons_append, runSteps_cons, hexec]
    rcases checkSlot_run k s p with hc | ⟨e, hc⟩
    · have hscope : inner = t.enclosingScope? p.scopes s.child := by
        rw [ht.enclosingScope?_of_child hn hs, hinner]
      have hvisit := ih s.child p m hm hs hext hp hscope (hnew s (by simp))
      simp only [EStateM.run_bind, hc, hvisit]
      rw [runSteps_append]
      obtain ⟨hp₁, hext₁, -⟩ := runSteps_keeps hp hlanguage (steps t depth s.child)
      cases hrun : runSteps (exec config) (steps t depth s.child) p with
      | error e p₁ => rfl
      | ok _ p₁ =>
        rw [hrun] at hp₁ hext₁
        have hsame : ∀ x, ¬ t.Below s.child x → p₁.scopes.scopeOf? x = p.scopes.scopeOf? x :=
          fun x hx => runSteps_scopeOf?_eq hp hlanguage (fun hmem => hx (below_of_enter_mem ht hmem)) hrun
        have howner := ht.not_below_of_child hn hs
        refine ih' ((List.sublist_cons_self s slots).trans hslots) (hext.trans hext₁) hp₁ ?_ ?_
        · have habove : ∀ a ∈ t.ancestors owner, p₁.scopes.scopeOf? a = p.scopes.scopeOf? a :=
            fun a ha => hsame a fun hb => howner (ht.below_trans hb (.inr ha))
          rw [hsame owner howner, enclosingScope?, enclosingScopes_congr habove, hinner]
          rfl
        · intro s' hs' x hx
          have hne : s.child ≠ s'.child := by
            have hnodup := (nodup_slots ht hn).sublist (hslots.map Slot.child)
            rw [List.map_cons, List.nodup_cons] at hnodup
            exact fun he => hnodup.1 (he ▸ List.mem_map_of_mem hs')
          rw [hsame x fun hb => hne (ht.eq_of_below hn hs (hchild s' (List.mem_cons_of_mem _ hs')) hb hx)]
          exact hnew s' (List.mem_cons_of_mem _ hs') x hx
    · simp only [EStateM.run_bind, hc]

/-- A walk of sufficient depth does the steps of its node. -/
theorem visit_run {config : Config} {languages : Set String} {scope : Option ScopeId} {p : Progress}
    (ht : t.WellFormed) (hlanguage : config.separator ∈ languages) (hn : t.get? id = some n)
    (hdepth : t.size < depth + (t.ancestors id).length)
    (hext : t.Extends p.tree) (hp : p.tree.ProperIn languages)
    (hscope : scope = t.enclosingScope? p.scopes id)
    (hnew : ∀ x, t.Below id x → p.scopes.scopeOf? x = none) :
    (visit config depth id scope).run p = runSteps (exec config) (steps t depth id) p := by
  induction depth generalizing id n scope p with
  | zero =>
    have := ht.length_ancestors_lt hn
    omega
  | succ depth ih =>
    obtain ⟨n', hn', hb⟩ := hext.node hn
    have hsteps : steps t (depth + 1) id =
        .enter id :: n.payload.slots.flatMap fun s => .check id s :: steps t depth s.child := by
      rw [steps, hn]
    have hscope' : p.tree.enclosingScope? p.scopes id = scope := (hext.enclosingScope?_eq ht hn _).trans hscope.symm
    have hslots : n'.payload.slots = n.payload.slots := hb.payload.slots_eq
    rw [hsteps, runSteps_cons, visit, exec, run_bind_ok (fetch_run hn'), run_bind_ok (fetch_run hn'),
      run_bind_ok (EStateM.run_get ..)]
    dsimp only
    rw [hscope', hslots]
    rcases declareIn_run config id n' scope p with ⟨p₁, hd, hdec⟩ | ⟨e, hd⟩
    · rw [run_bind_ok hd, run_bind_ok hd]
      have hp₁ : p₁.tree.ProperIn languages := hdec.tree_eq ▸ hp
      have hn₁ : p₁.tree.get? id = some n' := hdec.tree_eq ▸ hn'
      have hscopes : ∀ x, p₁.scopes.scopeOf? x = p.scopes.scopeOf? x :=
        ScopeTree.scopeOf?_congr hdec.scopes_eq
      rcases innerScope_run config scope hp₁ hn₁ with ⟨inner, p₂, hi, ho⟩ | ⟨e, p₂, hi, -⟩
      · rw [run_bind_ok hi, run_bind_ok hi]
        have hid : p₁.scopes.scopeOf? id = none := by rw [hscopes, hnew id (.refl t id)]
        have hold : ∀ x, x ≠ id → p₂.scopes.scopeOf? x = p.scopes.scopeOf? x :=
          fun x hx => by rw [ho.scopeOf?_eq hx, hscopes]
        refine slots_run ht hlanguage hn hb ?_ (List.Sublist.refl _)
          (hext.trans (hdec.tree_eq ▸ ho.toExtends hn₁)) (ho.properIn hp₁ hlanguage hn₁) ?_ ?_
        · intro c q m hm hc hext' hq hinner hnew'
          have hdepth' : t.size < depth + (t.ancestors c).length := by
            rw [ht.ancestors_of_child hn hc, List.length_cons]
            omega
          exact ih hm hdepth' hext' hq hinner hnew'
        · have habove : ∀ a ∈ t.ancestors id, p₂.scopes.scopeOf? a = p.scopes.scopeOf? a :=
            fun a ha => hold a fun he => ht.not_mem_ancestors id (he ▸ ha)
          rw [ho.inner_eq hid, hscope, enclosingScope?, enclosingScope?, enclosingScopes_congr habove]
        · intro s hs x hx
          have hc := Payload.child_mem_children hs
          rw [hold x fun he => ht.not_below_of_child hn hc (he ▸ hx)]
          exact hnew x (ht.below_of_child hn hc hx)
      · rw [run_bind_error hi, run_bind_error hi]
    · rw [run_bind_error hd, run_bind_error hd]

/-- Nothing is entered after what stands below it. -/
def Step.Before (t : Tree) (x y : Step) : Prop := ∀ a b, x = .enter a → y = .enter b → ¬ t.Below b a

theorem steps_pairwise (ht : t.WellFormed) (depth : Nat) (id : NodeId) :
    (steps t depth id).Pairwise (Step.Before t) := by
  induction depth generalizing id with
  | zero => exact .nil
  | succ depth ih =>
    rw [steps]
    cases hn : t.get? id with
    | none => exact List.pairwise_singleton ..
    | some n =>
      have hchild : ∀ s ∈ n.payload.slots, s.child ∈ n.children := fun s hs => Payload.child_mem_children hs
      have hbelow : ∀ {s b}, Step.enter b ∈ Step.check id s :: steps t depth s.child → t.Below s.child b := by
        intro s b hb
        rcases List.mem_cons.mp hb with hb | hb
        · cases hb
        · exact below_of_enter_mem ht hb
      refine List.pairwise_cons.mpr ⟨?_, List.pairwise_flatMap.mpr ⟨?_, ?_⟩⟩
      · rintro y hy a b ⟨⟩ rfl hab
        obtain ⟨s, hs, hb⟩ := List.mem_flatMap.mp hy
        exact ht.not_below_of_child hn (hchild s hs) (ht.below_trans (hbelow hb) hab)
      · intro s hs
        refine List.pairwise_cons.mpr ⟨?_, ih s.child⟩
        rintro y _ a b ⟨⟩
      · have hnodup := List.pairwise_map.mp (nodup_slots ht hn)
        refine hnodup.imp_of_mem ?_
        rintro s s' hs hs' hne x hx y hy a b rfl rfl hab
        exact hne (ht.eq_of_below hn (hchild s hs) (hchild s' hs') (hbelow hx)
          (ht.below_trans (hbelow hy) hab))
/-- What is entered before a node does not stand below it. -/
theorem not_below_of_split {done rest : List Step} {root a : NodeId} (ht : t.WellFormed)
    (hsplit : steps t depth root = done ++ .enter id :: rest) (ha : Step.enter a ∈ done) : ¬ t.Below id a := by
  have hpairwise := hsplit ▸ steps_pairwise ht depth root
  exact (List.pairwise_append.mp hpairwise).2.2 _ ha _ (List.mem_cons_self ..) a id rfl rfl

end

end Registration

namespace Tree

variable {t : Tree} {config : Config} {languages : Set String} {root : NodeId}

theorem size_lt_depthLimit (t : Tree) : t.size < t.depthLimit := by
  have hsize : t.size < 2 * t.size + 2 := by omega
  exact hsize.trans_le (Nat.add_le_add_right (Nat.le_add_left ..) 2)

theorem lt_depthLimit (t : Tree) (id : NodeId) : t.size < t.depthLimit + (t.ancestors id).length :=
  Nat.lt_add_right _ t.size_lt_depthLimit

/-- Registration from a node does the steps of the node. -/
theorem register_eq_of_get? {n : Node} (h : t.ProperIn languages) (hlanguage : config.separator ∈ languages)
    (hn : t.get? root = some n) :
    t.register config root =
      match runSteps (Registration.exec config) (Registration.steps t t.depthLimit root) { tree := t } with
      | .ok _ p => ⟨.ok ⟨p.scopes, p.duplicates⟩, p.tree⟩
      | .error e p => ⟨.error e, p.tree⟩ := by
  have hscope : none = t.enclosingScope? {} root := by
    have hnone : t.enclosingScopes {} root = [] :=
      List.filterMap_eq_nil_iff.mpr fun a _ => ScopeTree.scopeOf?_empty a
    rw [enclosingScope?, hnone]
    rfl
  have hrun := Registration.visit_run (p := { tree := t }) h.toWellFormed hlanguage hn (t.lt_depthLimit root)
    (.refl t) h hscope fun x _ => ScopeTree.scopeOf?_empty x
  cases hsteps : runSteps (Registration.exec config) (Registration.steps t t.depthLimit root) { tree := t } with
  | ok _ p => rw [register, hrun, hsteps]
  | error e p => rw [register, hrun, hsteps]

/-- Registration does the steps of the root. -/
theorem register_eq (h : t.ProperIn languages) (hlanguage : config.separator ∈ languages) (hr : t.root = some root) :
    t.register config root =
      match runSteps (Registration.exec config) (Registration.steps t t.depthLimit root) { tree := t } with
      | .ok _ p => ⟨.ok ⟨p.scopes, p.duplicates⟩, p.tree⟩
      | .error e p => ⟨.error e, p.tree⟩ := by
  obtain ⟨n, hn, -, -⟩ := h.root_parent hr
  exact register_eq_of_get? h hlanguage hn

/-- Registration from an id that points nowhere does nothing. -/
theorem register_of_get?_none (hn : t.get? root = none) :
    t.register config root = ⟨.error (.malformed root none .dangling), t⟩ := by
  have hvisit : (Registration.visit config t.depthLimit root none).run { tree := t } =
      .error (.malformed root none .dangling) { tree := t } :=
    run_bind_error (Registration.fetch_run_none (p := { tree := t }) hn) _
  rw [register, hvisit]

/-- What registration from any node keeps. -/
theorem ProperIn.register_keeps (h : t.ProperIn languages) (hlanguage : config.separator ∈ languages) (root : NodeId) :
    (t.register config root).tree.ProperIn languages ∧ t.Extends (t.register config root).tree ∧
      t.KeepsAllButRecords (t.register config root).tree := by
  cases hn : t.get? root with
  | none =>
    rw [register_of_get?_none hn]
    exact ⟨h, .refl t, KeepsAllButRecords.refl t⟩
  | some n =>
    have hkeeps := Registration.runSteps_keeps (p := { tree := t }) h hlanguage
      (Registration.steps t t.depthLimit root)
    rw [register_eq_of_get? h hlanguage hn]
    cases hrun : runSteps (Registration.exec config) (Registration.steps t t.depthLimit root) { tree := t } with
    | ok _ p | error e p =>
      rw [hrun] at hkeeps
      exact hkeeps

end Tree
end NameResolution
