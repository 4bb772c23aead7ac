import NameResolution.Proofs.Registration.Registered

/-!
# The invariant of registration

The walk keeps track of what it has entered: scopes and entries belong to entered nodes or to the implicit
members of entered records, and what was dropped is entered nowhere. Since nothing is entered twice and
nothing is entered after what stands below it, each step finds its node untouched. That the scope tree is
true takes a tree of one language; what is said of the tree and of who owns a scope does not.
-/
namespace NameResolution.Registration
open NameResolution.Tree ScopeTree

/-- What the steps `done` over the tree `t` have made of the tree, and who owns the scopes they have opened. -/
structure Walked (languages : Set String) (t : Tree) (done : List Step) (p : Progress) : Prop where
  toExtends : t.Extends p.tree
  keeps : t.KeepsAllButRecords p.tree
  proper : p.tree.ProperIn languages
  pending : ∀ {x m}, .enter x ∉ done → t.get? x = some m → p.tree.get? x = some m
  grounded : Grounded p.tree p.scopes
  owner_entered : ∀ {s sc}, p.scopes.get? s = some sc → .enter sc.owner ∈ done
  scope_opened : ∀ {x n kind}, .enter x ∈ done → t.get? x = some n → n.payload.opens? = some kind →
    (p.scopes.scopeOf? x).isSome

/-- What holds of the progress `p` after the steps `done` over the tree `t`. -/
structure Invariant (separator : String) (t : Tree) (done : List Step) (p : Progress) : Prop
    extends Walked {separator} t done p where
  registered : Registered separator p.tree p.scopes
  entry_entered : ∀ {e}, e ∈ p.scopes.entries → .enter e.declaration ∈ done ∨
    ∃ record name typeName, .enter record ∈ done ∧
      p.tree.get? e.declaration = some (implicitNode e.declaration record name typeName)
  dropped : ∀ {d}, d ∈ p.duplicates → .enter d.repeated ∈ done ∧
    ∀ e ∈ p.scopes.entries, e.declaration ≠ d.repeated

section
variable {t : Tree} {id x : NodeId} {n : Node} {depth : Nat}

/-- The walk enters nothing that is not there. -/
theorem exists_of_enter_mem (ht : t.WellFormed) (hn : t.get? id = some n)
    (hx : Step.enter x ∈ steps t depth id) : ∃ k, t.get? x = some k :=
  exists_of_below hn (below_of_enter_mem ht hx)

/-- What stands around a node that is entered is entered, from the top of the walk on. -/
theorem enter_mem_of_mem_ancestors {a : NodeId} (ht : t.WellFormed) (hx : Step.enter x ∈ steps t depth id)
    (ha : a ∈ t.ancestors x) (hbelow : t.Below id a) : Step.enter a ∈ steps t depth id := by
  induction depth generalizing id with
  | zero => cases hx
  | succ depth ih =>
    rcases enter_mem_steps_succ.mp hx with rfl | ⟨n, hn, s, hs, hx⟩
    · rcases hbelow with rfl | hbelow
      · exact hx
      · exact absurd (ht.mem_ancestors_trans hbelow ha) (ht.not_mem_ancestors x)
    · refine enter_mem_steps_succ.mpr ?_
      rcases hbelow with rfl | hbelow
      · exact .inl rfl
      · obtain ⟨c, hc, hca⟩ := ht.exists_child_below hn hbelow
        obtain rfl := ht.eq_of_below hn (Payload.child_mem_children hs) hc (below_of_enter_mem ht hx)
          (ht.below_trans hca (.inr ha))
        exact .inr ⟨n, hn, s, hs, ih hx hca⟩

/-- Implicit fields are not entered. -/
theorem not_implicit_of_enter_mem {languages : Set String} (ht : t.ProperIn languages)
    (hid : ¬ IsImplicitField t id) (hx : Step.enter x ∈ steps t depth id) : ¬ IsImplicitField t x := by
  induction depth generalizing id with
  | zero => cases hx
  | succ depth ih =>
    rcases enter_mem_steps_succ.mp hx with rfl | ⟨n, hn, s, hs, hx⟩
    · exact hid
    · refine ih ?_ hx
      rintro ⟨m, f, hm, hf, hi⟩
      simp [ht.not_implicit_of_slot hn hs hm hf] at hi

end

namespace Walked
variable {config : Config} {languages : Set String} {t : Tree} {done : List Step} {id : NodeId} {n : Node}
  {p p' : Progress}

theorem start (h : t.ProperIn languages) : Walked languages t [] { tree := t } := by
  have hno : ∀ {s sc}, ({} : ScopeTree).get? s ≠ some sc :=
    fun hs => absurd (lt_size_of_get? hs) (Nat.not_lt_zero _)
  exact ⟨.refl t, KeepsAllButRecords.refl t, h, fun _ hm => hm, .empty t, fun hs => absurd hs hno,
    fun hx => by cases hx⟩

theorem check (h : Walked languages t done p) (owner : NodeId) (slot : Slot) :
    Walked languages t (done ++ [.check owner slot]) p := by
  refine { h with pending := ?_, owner_entered := ?_, scope_opened := ?_ }
  · exact fun hx hm => h.pending (fun hmem => hx (List.mem_append_left _ hmem)) hm
  · exact fun hs => List.mem_append_left _ (h.owner_entered hs)
  · exact fun hx hn hk => h.scope_opened (by simpa using hx) hn hk

theorem enter (h : Walked languages t done p) (hlanguage : config.separator ∈ languages)
    (he : Enters config id n p p') : Walked languages t (done ++ [.enter id]) p' := by
  refine ⟨h.toExtends.trans he.toExtends, KeepsAllButRecords.trans h.keeps he.keepsAllButRecords,
    he.properIn h.proper hlanguage, ?_, h.grounded.enter h.proper.toWellFormed he, ?_, ?_⟩
  · intro x m hx hm
    exact he.kept (fun heq => hx (by simp [heq])) (h.pending (fun hmem => hx (by simp [hmem])) hm)
  · intro s sc hs
    rcases he.get?_cases hs with hs | ⟨howner, -⟩
    · exact List.mem_append_left _ (h.owner_entered hs)
    · simp [howner]
  · intro x m kind hx hm hk
    by_cases heq : x = id
    · subst heq
      obtain ⟨n', hn', hb⟩ := h.toExtends.node hm
      rw [he.node] at hn'
      cases hn'
      exact he.isSome_scopeOf? (hb.payload.opens?_eq.trans hk)
    · rw [he.scopeOf?_eq heq]
      exact h.scope_opened (by simpa [heq] using hx) hm hk

/-- A node owns no scope before it is entered. -/
theorem scopeOf?_eq_none (h : Walked languages t done p) (hbefore : ∀ a, Step.enter a ∈ done → ¬ t.Below id a) :
    p.scopes.scopeOf? id = none := by
  cases hs : p.scopes.scopeOf? id with
  | none => rfl
  | some s =>
    obtain ⟨sc, hsc, rfl⟩ := get?_of_scopeOf? hs
    exact absurd (.refl t sc.owner) (hbefore sc.owner (h.owner_entered hsc))

/-- Nothing that stands below a node is entered before it. -/
theorem not_mem_ancestors (h : Walked languages t done p) (ht : t.WellFormed)
    (hex : ∀ a, Step.enter a ∈ done → ∃ k, t.get? a = some k)
    (hbefore : ∀ a, Step.enter a ∈ done → ¬ t.Below id a) {a : NodeId} (ha : Step.enter a ∈ done) :
    id ∉ p.tree.ancestors a := by
  intro hmem
  obtain ⟨k, hk⟩ := hex a ha
  rw [h.toExtends.ancestors_eq ht hk] at hmem
  exact hbefore a ha (.inr hmem)

theorem step (h : Walked languages t done p) (hlanguage : config.separator ∈ languages) {x : Step}
    (hx : (exec config x).run p = .ok () p') : Walked languages t (done ++ [x]) p' := by
  rcases exec_ok_cases h.proper hx with ⟨owner, slot, rfl, rfl⟩ | ⟨id, n, rfl, he⟩
  · exact h.check owner slot
  · exact h.enter hlanguage he

theorem run {xs : List Step} (ht : t.ProperIn languages) (hlanguage : config.separator ∈ languages)
    (hrun : runSteps (exec config) xs { tree := t } = .ok () p') : Walked languages t xs p' :=
  runSteps_induction (I := Walked languages t) (start ht)
    (fun _ _ _ _ _ _ h hx _ => h.step hlanguage hx) hrun

/-- Induction along a walk, or the part of it that has been done. Checks change nothing, and a node that is entered is
there and has not been entered before. -/
theorem induction {I : List Step → Progress → Prop} {depth : Nat} {root : NodeId} {k : Node} {xs post : List Step}
    (ht : t.ProperIn languages) (hlanguage : config.separator ∈ languages) (hk : t.get? root = some k)
    (hsplit : steps t depth root = xs ++ post) (hrun : runSteps (exec config) xs { tree := t } = .ok () p')
    (start : I [] { tree := t })
    (check : ∀ {done owner slot q}, I done q → I (done ++ [.check owner slot]) q)
    (enter : ∀ {done rest id n q q'}, steps t depth root = done ++ .enter id :: rest → Walked languages t done q →
      t.get? id = some n → Enters config id n q q' → I done q → I (done ++ [.enter id]) q') : I xs p' := by
  refine (runSteps_induction (I := fun done q => Walked languages t done q ∧ I done q) ⟨.start ht, start⟩ ?_ hrun).2
  rintro done x rest q q' rfl ⟨h, hq⟩ hx -
  refine ⟨h.step hlanguage hx, ?_⟩
  rw [List.append_assoc, List.cons_append] at hsplit
  rcases exec_ok_cases h.proper hx with ⟨owner, slot, rfl, rfl⟩ | ⟨id, n, rfl, he⟩
  · exact check hq
  · obtain ⟨m, hm⟩ := exists_of_enter_mem ht.toWellFormed hk (hsplit ▸ by simp : Step.enter id ∈ steps t depth root)
    have hn := h.pending (fun hmem => not_below_of_split ht.toWellFormed hsplit hmem (.refl t id)) hm
    rw [he.node] at hn
    cases hn
    exact enter hsplit h hm he hq

end Walked

namespace Invariant
variable {config : Config} {t : Tree} {done : List Step} {id : NodeId} {n : Node} {p p' : Progress}

theorem start (h : t.Proper config.separator) : Invariant config.separator t [] { tree := t } := by
  refine ⟨.start h, .empty _ t, ?_, ?_⟩
  · intro e he
    simp at he
  · intro d hd
    simp at hd

theorem check (h : Invariant config.separator t done p) (owner : NodeId) (slot : Slot) :
    Invariant config.separator t (done ++ [.check owner slot]) p := by
  have hmono : ∀ {x}, Step.enter x ∈ done → Step.enter x ∈ done ++ [.check owner slot] :=
    fun hx => List.mem_append_left _ hx
  refine ⟨h.toWalked.check owner slot, h.registered, ?_, ?_⟩
  · intro e he
    rcases h.entry_entered he with hx | ⟨r, name, typeName, hr, hm⟩
    · exact .inl (hmono hx)
    · exact .inr ⟨r, name, typeName, hmono hr, hm⟩
  · intro d hd
    exact ⟨hmono (h.dropped hd).1, (h.dropped hd).2⟩

/-- Scopes and entries as they are before a node is entered: none belongs to the node or stands below it. -/
theorem untouched (h : Invariant config.separator t done p) (ht : t.WellFormed)
    (hex : ∀ a, Step.enter a ∈ done → ∃ k, t.get? a = some k)
    (hbefore : ∀ a, Step.enter a ∈ done → ¬ t.Below id a) (himp : ¬ IsImplicitField p.tree id) :
    p.scopes.scopeOf? id = none ∧
    (∀ {s sc}, p.scopes.get? s = some sc → id ∉ p.tree.ancestors sc.owner) ∧
    ∀ e ∈ p.scopes.entries, e.declaration ≠ id ∧ id ∉ p.tree.ancestors e.declaration ∧
      ∀ name typeName,
        p.tree.get? e.declaration ≠ some (implicitNode e.declaration id name typeName) := by
  have habove : ∀ a, Step.enter a ∈ done → id ∉ p.tree.ancestors a :=
    fun a ha => h.not_mem_ancestors ht hex hbefore ha
  refine ⟨h.scopeOf?_eq_none hbefore, fun hs => habove _ (h.owner_entered hs), fun e he => ?_⟩
  rcases h.entry_entered he with hx | ⟨r, name, typeName, hr, hm⟩
  · refine ⟨fun heq => hbefore _ hx (heq ▸ .refl t id), habove _ hx, ?_⟩
    intro name typeName hm
    obtain ⟨k, hk⟩ := hex _ hx
    obtain ⟨k', hk', hb⟩ := h.toExtends.node hk
    rw [hm] at hk'
    cases hk'
    have hanc := ht.ancestors_of_parent hk hb.parent.symm
    exact hbefore _ hx (.inr (by simp [hanc]))
  · have hanc := h.proper.ancestors_of_parent hm rfl
    have hne : id ≠ r := fun heq => hbefore r hr (heq ▸ .refl t r)
    refine ⟨?_, ?_, ?_⟩
    · rintro rfl
      exact himp ⟨_, _, hm, rfl, rfl⟩
    · rw [hanc]
      exact fun hmem => (List.mem_cons.mp hmem).elim hne (habove r hr)
    · intro name' typeName' hm'
      rw [hm] at hm'
      exact hne (by simpa [implicitNode] using (congrArg Node.parent (Option.some.inj hm')).symm)

/-- The scope tree stays true when a node is entered. -/
theorem registered_enter (h : Invariant config.separator t done p) (ht : t.WellFormed)
    (hex : ∀ a, Step.enter a ∈ done → ∃ k, t.get? a = some k)
    (hbefore : ∀ a, Step.enter a ∈ done → ¬ t.Below id a) (himp : ¬ IsImplicitField p.tree id)
    (he : Enters config id n p p') : Registered config.separator p'.tree p'.scopes := by
  obtain ⟨hnew, howner, hentries⟩ := h.untouched ht hex hbefore himp
  obtain ⟨p₁, inner, hd, ho⟩ := he.effect
  have hn := he.node
  have hscopes₁ : ∀ x, p₁.scopes.scopeOf? x = p.scopes.scopeOf? x := scopeOf?_congr hd.scopes_eq
  have henclosing : p₁.tree.enclosingScope? p₁.scopes id = p.tree.enclosingScope? p.scopes id := by
    rw [hd.tree_eq, enclosingScope?_congr hd.scopes_eq]
  -- After the declaration the node may be entered, but nothing below it.
  have hentries₁ : ∀ e ∈ p₁.scopes.entries, id ∉ p₁.tree.ancestors e.declaration ∧
      ∀ name typeName, p₁.tree.get? e.declaration ≠ some (implicitNode e.declaration id name typeName) := by
    intro e he
    rw [hd.tree_eq]
    rcases hd.entry_cases (fun s hs => lt_size_of_enclosingScope? hs) he with he | ⟨heq, -⟩
    · exact (hentries e he).2
    · rw [heq]
      exact ⟨h.proper.not_mem_ancestors id, fun name typeName hm => himp ⟨_, _, hm, rfl, rfl⟩⟩
  have hreg₁ := h.registered.declares hn (fun e he => (hentries e he).1) hd
  refine hreg₁.opens (hd.tree_eq ▸ h.proper) (hd.tree_eq ▸ hn) (by rw [hscopes₁, hnew]) ?_
    (fun e he => (hentries₁ e he).1) (fun e he => (hentries₁ e he).2) (henclosing ▸ ho)
  intro s sc hs
  rw [hd.tree_eq]
  exact howner (get?_congr hd.scopes_eq s ▸ hs)

/-- What was dropped stays out when a node is entered. -/
theorem dropped_enter (h : Invariant config.separator t done p) (ht : t.WellFormed)
    (hex : ∀ a, Step.enter a ∈ done → ∃ k, t.get? a = some k)
    (hbefore : ∀ a, Step.enter a ∈ done → ¬ t.Below id a) (himp : ¬ IsImplicitField p.tree id)
    (he : Enters config id n p p') {d : Duplicate} (hdup : d ∈ p'.duplicates) :
    (.enter d.repeated ∈ done ∨ d.repeated = id) ∧ ∀ e ∈ p'.scopes.entries, e.declaration ≠ d.repeated := by
  obtain ⟨-, -, hentries⟩ := h.untouched ht hex hbefore himp
  -- No implicit member of the node was entered before, nor is it the node.
  have hfresh : ∀ {e : Entry} {name typeName}, (Step.enter e.declaration ∈ done ∨ e.declaration = id) →
      p'.tree.get? e.declaration ≠ some (implicitNode e.declaration id name typeName) := by
    rintro e name typeName (hx | heq) hm
    · obtain ⟨k, hk⟩ := hex _ hx
      obtain ⟨k', hk', hb⟩ := (h.toExtends.trans he.toExtends).node hk
      rw [hm] at hk'
      cases hk'
      have hanc := ht.ancestors_of_parent hk hb.parent.symm
      exact hbefore _ hx (.inr (by simp [hanc]))
    · have hwf := (he.properIn h.proper rfl).toWellFormed
      have hanc := hwf.ancestors_of_parent hm rfl
      exact hwf.not_mem_ancestors e.declaration (hanc ▸ by simp [heq])
  rcases he.duplicate_cases hdup with hold | ⟨heq, hcases⟩
  · obtain ⟨hrep, hno⟩ := h.dropped hold
    refine ⟨.inl hrep, fun e hmem => ?_⟩
    rcases he.entry_cases hmem with hmem | ⟨heq, -⟩ | ⟨name, typeName, hm⟩
    · exact hno e hmem
    · rw [heq]
      rintro rfl
      exact hbefore _ hrep (.refl t _)
    · exact fun heq => hfresh (.inl (heq ▸ hrep)) hm
  · refine ⟨.inr heq, fun e hmem => ?_⟩
    rcases hcases e hmem with hmem | ⟨name, typeName, hm⟩
    · exact heq ▸ (hentries e hmem).1
    · exact fun heq' => hfresh (.inr (heq'.trans heq)) hm

/-- Entering a node keeps the invariant. -/
theorem enter (h : Invariant config.separator t done p) (ht : t.WellFormed)
    (hex : ∀ a, Step.enter a ∈ done → ∃ k, t.get? a = some k)
    (hbefore : ∀ a, Step.enter a ∈ done → ¬ t.Below id a) (himp : ¬ IsImplicitField p.tree id)
    (he : Enters config id n p p') : Invariant config.separator t (done ++ [.enter id]) p' := by
  obtain ⟨-, -, hentries⟩ := h.untouched ht hex hbefore himp
  have hmem : ∀ {x}, Step.enter x ∈ done ∨ x = id → Step.enter x ∈ done ++ [.enter id] := by
    rintro x (hx | rfl)
    · exact List.mem_append_left _ hx
    · exact List.mem_append_right _ (List.mem_singleton.mpr rfl)
  refine ⟨h.toWalked.enter rfl he, h.registered_enter ht hex hbefore himp he, ?_, ?_⟩
  · intro e hmem'
    rcases he.entry_cases hmem' with hold | ⟨heq, -⟩ | ⟨name, typeName, hm⟩
    · rcases h.entry_entered hold with hx | ⟨r, name, typeName, hr, hm⟩
      · exact .inl (hmem (.inl hx))
      · exact .inr ⟨r, name, typeName, hmem (.inl hr), he.kept (hentries e hold).1 hm⟩
    · exact .inl (hmem (.inr heq))
    · exact .inr ⟨id, name, typeName, hmem (.inr rfl), hm⟩
  · intro d hdup
    obtain ⟨hrep, hno⟩ := h.dropped_enter ht hex hbefore himp he hdup
    exact ⟨hmem hrep, hno⟩

/-- The invariant after a step of a walk. -/
theorem step {root : NodeId} {depth : Nat} {x : Step} {rest : List Step}
    (h : Invariant config.separator t done p) (ht : t.Proper config.separator) {k : Node}
    (hk : t.get? root = some k) (hroot : ¬ IsImplicitField t root)
    (hsplit : steps t depth root = done ++ x :: rest) (hx : (exec config x).run p = .ok () p') :
    Invariant config.separator t (done ++ [x]) p' := by
  rcases exec_ok_cases h.proper hx with ⟨owner, slot, rfl, rfl⟩ | ⟨id, n, rfl, he⟩
  · exact h.check owner slot
  · have hsub : ∀ {a}, Step.enter a ∈ done → Step.enter a ∈ steps t depth root :=
      fun ha => hsplit ▸ List.mem_append_left _ ha
    have hid : Step.enter id ∈ steps t depth root := hsplit ▸ by simp
    refine h.enter ht.toWellFormed (fun a ha => exists_of_enter_mem ht.toWellFormed hk (hsub ha))
      (fun a ha => not_below_of_split ht.toWellFormed hsplit ha) ?_ he
    rintro ⟨m, f, hm, hf, hi⟩
    obtain ⟨m', hm'⟩ := exists_of_enter_mem ht.toWellFormed hk hid
    obtain ⟨m'', hm'', hb⟩ := h.toExtends.node hm'
    rw [hm] at hm''
    cases hm''
    have hp := hb.payload
    rw [hf] at hp
    exact not_implicit_of_enter_mem ht hroot hid
      ⟨m', f, hm', hp.eq_of_kind rfl (by simp [Payload.kind]), hi⟩

/-- A run over the steps up to a place in the list. -/
theorem run {root : NodeId} {depth : Nat} {done rest : List Step} (ht : t.Proper config.separator) {k : Node}
    (hk : t.get? root = some k) (hroot : ¬ IsImplicitField t root) (hsplit : steps t depth root = done ++ rest)
    (hrun : runSteps (exec config) done { tree := t } = .ok () p') : Invariant config.separator t done p' := by
  refine runSteps_induction (I := Invariant config.separator t) (start ht) ?_ hrun
  rintro before x after p p₂ rfl h hx -
  exact h.step ht hk hroot (by rw [hsplit, List.append_assoc, List.cons_append]) hx

end Invariant
end NameResolution.Registration
