import NameResolution.Proofs.Overloads
import NameResolution.Proofs.Registration.Growth
import NameResolution.Proofs.Size

/-!
# Units whose names are distinct

Whether a unit registers without duplicates, each name being declared at most once in a scope, can be told from its
tree alone, and not from the order of anything in it: `registers_distinct` and `registers_of_distinct` say that
registration succeeds so just where the places hold what they may hold and the names are `Distinct`.
-/
namespace NameResolution
open Registration

namespace Tree

/-- The nearest node above that opens a scope. -/
def opener? (t : Tree) (x : NodeId) : Option NodeId :=
  (t.ancestors x).find? fun a => (t.get? a).any (·.payload.opens?.isSome)

def implicitNames (separator : String) (t : Tree) (record : NodeId) : List String :=
  "this" :: (t.enclosingRecords record).map fun outer =>
    Text.joinPath separator (t.qualifiedName separator outer) "this"

/-- The node is part of the nesting at `root` and declared under a name in the scope that `owner` opens. -/
structure DeclaresAt (separator : String) (t : Tree) (root owner : NodeId) (name : String) (x : NodeId) : Prop where
  nests : t.Nests root x
  opener : t.opener? x = some owner
  named : name ≠ ""
  node : ∃ n, t.get? x = some n ∧ n.kind.isDeclaration = true ∧ declaredName separator n = name

/-- Every place holds what may stand there, and no two declarations share a name in a scope. -/
structure Distinct (separator : String) (t : Tree) (root : NodeId) : Prop where
  allowed : ∀ {x n s}, t.Nests root x → t.get? x = some n → s ∈ n.payload.slots →
    ∃ k, t.get? s.child = some k ∧ s.allows k.kind = true
  alone : ∀ {owner name x y}, t.DeclaresAt separator root owner name x → t.DeclaresAt separator root owner name y →
    x = y
  notImplicit : ∀ {owner name x}, t.DeclaresAt separator root owner name x → t.kind? owner = some .recordDecl →
    name ∉ t.implicitNames separator owner

theorem mem_ancestors_of_opener? {t : Tree} {x owner : NodeId} (h : t.opener? x = some owner) :
    owner ∈ t.ancestors x := List.mem_of_find?_eq_some h

theorem opens_of_opener? {t : Tree} {x owner : NodeId} (h : t.opener? x = some owner) :
    ∃ n, t.get? owner = some n ∧ n.payload.opens?.isSome = true := by
  have hany := List.find?_some h
  rwa [Option.any_eq_true] at hany

section
variable {separator : String} {t t' : Tree} {id f : NodeId} {n m : Node} {r : Record} {name : String}

theorem Supplied.name_mem (h : t.Supplied separator id r) (hf : f ∈ r.implicitFields) (hm : t.get? f = some m) :
    m.name ∈ t.implicitNames separator id := by
  rcases List.mem_append.mp hf with hf | hf
  · obtain ⟨g, hg, hnode⟩ := h.this
    rw [hg, Option.toList_some, List.mem_singleton] at hf
    subst hf
    rw [hm] at hnode
    cases hnode
    exact List.mem_cons_self ..
  · obtain ⟨o, ho, rfl⟩ := List.mem_map.mp hf
    have hnode := h.outer o ho
    rw [hm] at hnode
    cases hnode
    refine List.mem_cons_of_mem _ (List.mem_map.mpr ⟨o.record, ?_, rfl⟩)
    rw [← h.records]
    exact List.mem_map_of_mem ho

theorem Supplied.exists_of_name_mem (h : t.Supplied separator id r) (hname : name ∈ t.implicitNames separator id) :
    ∃ f ∈ r.implicitFields, ∃ m, t.get? f = some m ∧ m.name = name := by
  rcases List.mem_cons.mp hname with rfl | hname
  · obtain ⟨f, hf, hnode⟩ := h.this
    exact ⟨f, List.mem_append_left _ (by simp [hf]), _, hnode, rfl⟩
  · obtain ⟨outer, houter, rfl⟩ := List.mem_map.mp hname
    rw [← h.records] at houter
    obtain ⟨o, ho, rfl⟩ := List.mem_map.mp houter
    exact ⟨o.field, List.mem_append_right _ (List.mem_map_of_mem ho), _, h.outer o ho, rfl⟩

theorem Extends.implicitNames_eq (h : t.Extends t') (ht : t.WellFormed) (hn : t.get? id = some n) :
    t'.implicitNames separator id = t.implicitNames separator id := by
  rw [implicitNames, implicitNames, h.enclosingRecords_eq ht hn]
  congr 1
  refine List.map_congr_left fun outer houter => ?_
  obtain ⟨k, hk⟩ := ht.exists_of_mem_ancestors (List.mem_of_mem_filter houter)
  rw [h.qualifiedName_eq ht separator hk]

theorem Extends.opener?_eq (h : t.Extends t') (ht : t.WellFormed) (hn : t.get? id = some n) :
    t'.opener? id = t.opener? id := by
  rw [opener?, h.ancestors_eq ht hn, opener?]
  refine List.find?_congr fun a ha => ?_
  obtain ⟨k, hk⟩ := ht.exists_of_mem_ancestors ha
  obtain ⟨k', hk', hb⟩ := h.node hk
  rw [hk, hk', Option.any_some, Option.any_some, hb.payload.opens?_eq]

/-- What is an implicit field was one, if it was there. -/
theorem Extends.isImplicitField (h : t.Extends t') (hn : t.get? id = some n) (hi : IsImplicitField t' id) :
    IsImplicitField t id := by
  obtain ⟨m, d, hm, hd, hi⟩ := hi
  obtain ⟨n', hn', hb⟩ := h.node hn
  rw [hm] at hn'
  cases hn'
  have hp := hb.payload
  rw [hd] at hp
  exact ⟨n, d, hn, hp.eq_of_kind rfl (by simp [Payload.kind]), hi⟩

end

end Tree

namespace Registration
open NameResolution.Tree ScopeTree

section
variable {config : Config} {languages : Set String} {t : Tree} {id x owner root : NodeId} {n : Node} {p p' : Progress}
  {done rest xs : List Step} {depth : Nat} {slot : Slot}

/-- What stands around a node is entered before it. -/
theorem enter_mem_of_split (ht : t.WellFormed) (hroot : t.root = some root)
    (hsplit : steps t depth root = done ++ .enter x :: rest) {a : NodeId} (ha : a ∈ t.ancestors x) :
    Step.enter a ∈ done := by
  obtain ⟨k, hk⟩ := ht.exists_of_mem_ancestors ha
  have hmem : Step.enter a ∈ steps t depth root :=
    enter_mem_of_mem_ancestors ht (hsplit ▸ by simp) ha (ht.below_root hroot hk)
  have hpairwise := hsplit ▸ steps_pairwise ht depth root
  rw [hsplit] at hmem
  rcases List.mem_append.mp hmem with hmem | hmem
  · exact hmem
  · rcases List.mem_cons.mp hmem with heq | hmem
    · cases heq
      exact absurd ha (ht.not_mem_ancestors x)
    · have hbefore := (List.pairwise_cons.mp (List.pairwise_append.mp hpairwise).2.1).1 _ hmem
      exact absurd (.inr ha) (hbefore x a rfl rfl)

theorem enter_mem_of_prefix (ht : t.WellFormed) (hroot : t.root = some root)
    (hsplit : steps t depth root = done ++ rest) (hx : Step.enter x ∈ done) {a : NodeId} (ha : a ∈ t.ancestors x) :
    Step.enter a ∈ done := by
  obtain ⟨pre, post, rfl⟩ := List.append_of_mem hx
  rw [List.append_assoc, List.cons_append] at hsplit
  exact List.mem_append_left _ (enter_mem_of_split ht hroot hsplit ha)

namespace Walked

/-- Registration changes what records hold, and nothing else. -/
theorem node (h : Walked languages t done p) (hn : t.get? x = some n) :
    ∃ n', p.tree.get? x = some n' ∧ n'.kind = n.kind ∧ n'.name = n.name ∧ n'.payload.slots = n.payload.slots := by
  obtain ⟨n', hn', hb⟩ := h.toExtends.node hn
  refine ⟨n', hn', ?_, hb.name, hb.payload.slots_eq⟩
  by_cases hk : n.kind = .recordDecl
  · exact (hb.payload.kind_recordDecl_iff.mpr hk).trans hk.symm
  · rw [h.keeps hn hk] at hn'
    cases hn'
    rfl

/-- The nodes that have scopes are those that were entered and open one. -/
theorem isSome_scopeOf?_iff (h : Walked languages t done p) (hn : t.get? x = some n) :
    (p.scopes.scopeOf? x).isSome = true ↔ .enter x ∈ done ∧ n.payload.opens?.isSome = true := by
  constructor
  · intro hsome
    obtain ⟨s, hs⟩ := Option.isSome_iff_exists.mp hsome
    obtain ⟨sc, hsc, rfl⟩ := get?_of_scopeOf? hs
    obtain ⟨n', hn', hopens⟩ := h.grounded.owner hsc
    obtain ⟨m, hm, hb⟩ := h.toExtends.node hn
    rw [hn'] at hm
    cases hm
    exact ⟨h.owner_entered hsc, by rw [← hb.payload.opens?_eq, hopens]; rfl⟩
  · rintro ⟨hmem, hopens⟩
    obtain ⟨kind, hkind⟩ := Option.isSome_iff_exists.mp hopens
    exact h.scope_opened hmem hn hkind

/-- Once all nodes above have been entered, the innermost scope is that of the nearest one that opens one. -/
theorem enclosingScope?_eq (h : Walked languages t done p) (ht : t.WellFormed) (hn : t.get? x = some n)
    (habove : ∀ a ∈ t.ancestors x, .enter a ∈ done) :
    p.tree.enclosingScope? p.scopes x = (t.opener? x).bind p.scopes.scopeOf? := by
  have hsome : ∀ a ∈ t.ancestors x,
      (p.scopes.scopeOf? a).isSome = (t.get? a).any (·.payload.opens?.isSome) := by
    intro a ha
    obtain ⟨k, hk⟩ := ht.exists_of_mem_ancestors ha
    rw [Bool.eq_iff_iff, h.isSome_scopeOf?_iff hk, hk, Option.any_some]
    exact and_iff_right (habove a ha)
  rw [enclosingScope?, h.toExtends.enclosingScopes_eq ht hn, enclosingScopes, opener?]
  generalize t.ancestors x = above at hsome
  induction above with
  | nil => rfl
  | cons a above ih =>
    have ha := hsome a (by simp)
    rw [List.filterMap_cons, List.find?_cons, ← ha]
    cases hs : p.scopes.scopeOf? a with
    | none => exact ih fun b hb => hsome b (List.mem_cons_of_mem _ hb)
    | some s => simp [hs]

/-- Once all nodes above have been entered, the nearest one that opens a scope has its scope. -/
theorem exists_scopeOf?_opener (h : Walked languages t done p) (ho : t.opener? x = some owner)
    (habove : ∀ a ∈ t.ancestors x, .enter a ∈ done) : ∃ s, p.scopes.scopeOf? owner = some s := by
  obtain ⟨k, hk, hopens⟩ := opens_of_opener? ho
  exact Option.isSome_iff_exists.mp
    ((h.isSome_scopeOf?_iff hk).mpr ⟨habove _ (mem_ancestors_of_opener? ho), hopens⟩)

end Walked

/-- A node that is entered has been declared, and its scope opened. -/
theorem enter_run_ok (hp : p.tree.ProperIn languages) (hn : p.tree.get? id = some n)
    (hrun : (exec config (.enter id)).run p = .ok () p') :
    ∃ p₁ inner, (declareIn config id n (p.tree.enclosingScope? p.scopes id)).run p = .ok () p₁ ∧
      Declares config id n (p.tree.enclosingScope? p.scopes id) p p₁ ∧
      Opens config id n (p.tree.enclosingScope? p.scopes id) p₁ inner p' := by
  obtain ⟨m, p₁, inner, hm, hd, hi⟩ := parts_of_enter_run hrun
  cases hn.symm.trans hm
  have hdec := Declares.of_run hd
  have htree := hdec.tree_eq
  exact ⟨p₁, inner, hd, hdec, .of_run (htree ▸ hp) (htree ▸ hn) hi⟩

/-- A node whose name is free and whose places hold what they may is entered. -/
theorem enter_run_of_free (hp : p.tree.ProperIn languages) (hn : p.tree.get? id = some n)
    (hfree : ∀ s, p.tree.enclosingScope? p.scopes id = some s → n.kind.isDeclaration = true →
      declaredName config.separator n ≠ "" → holder? p s (declaredName config.separator n) = none)
    (hallowed : ∀ s ∈ n.payload.slots, ∃ k, p.tree.get? s.child = some k ∧ s.allows k.kind = true) :
    ∃ p', (exec config (.enter id)).run p = .ok () p' ∧ p'.duplicates = p.duplicates := by
  rw [enter_run_eq hn]
  generalize p.tree.enclosingScope? p.scopes id = scope at hfree
  have hdeclare : ∃ p₁, (declareIn config id n scope).run p = .ok () p₁ ∧ p₁.tree = p.tree ∧
      p₁.duplicates = p.duplicates := by
    by_cases hskip : scope = none ∨ n.kind.isDeclaration = false ∨ declaredName config.separator n = ""
    · exact ⟨p, declareIn_run_of_skipped hskip, rfl, rfl⟩
    · simp only [not_or, Bool.not_eq_false] at hskip
      obtain ⟨hscope, hdecl, hnamed⟩ := hskip
      obtain ⟨s, rfl⟩ := Option.ne_none_iff_exists'.mp hscope
      rw [declareIn_run_of_named hdecl hnamed, hfree s rfl hdecl hnamed, ite_self]
      exact ⟨_, rfl, rfl, rfl⟩
  obtain ⟨p₁, hd, htree, hduplicates⟩ := hdeclare
  have hinner : ∃ inner p', (innerScope config id n scope).run p₁ = .ok inner p' ∧
      Opens config id n scope p₁ inner p' := by
    rcases n.opens_cases with ⟨r, hr⟩ | hopens | ⟨kind, hopens, hk⟩
    · obtain ⟨s, p', hrun, ho⟩ := enterRecord_run_of_checked config scope (htree ▸ hp) (htree ▸ hn) hr
        (checkSlots_run_of_allows (p := p₁.opened config.separator id scope) (htree ▸ hallowed))
      exact ⟨_, _, innerScope_run_of_record config scope hr hrun, ho⟩
    · exact ⟨_, _, innerScope_run_of_transparent config scope p₁ hopens, .transparent hopens⟩
    · exact ⟨_, _, innerScope_run_of_plain config scope p₁ hopens hk, .plain hopens hk⟩
  obtain ⟨inner, p', hi, ho⟩ := hinner
  rw [run_bind_ok hd, run_bind_ok hi]
  exact ⟨p', rfl, ho.duplicates_eq.trans hduplicates⟩

end

section
variable {config : Config} {t : Tree} {id x owner root : NodeId} {n : Node} {name : String} {p q : Progress}
  {done rest : List Step} {depth : Nat} {s : ScopeId}

/-- A name that is taken in a scope is that of an earlier declaration, or of an implicit member of its owner. -/
theorem Invariant.mem_lookup_cases (h : Invariant config.separator t done q) (ht : t.Proper config.separator)
    (hroot : t.root = some root) (hsplit : steps t t.depthLimit root = done ++ rest)
    (hx : x ∈ q.scopes.lookup s name) :
    (∃ n, .enter x ∈ done ∧ t.get? x = some n ∧ n.kind.isDeclaration = true ∧
      declaredName config.separator n = name ∧ ∃ owner, t.opener? x = some owner ∧ q.scopes.scopeOf? owner = some s) ∨
    ∃ record n r m, q.scopes.scopeOf? record = some s ∧ q.tree.get? record = some n ∧ n.payload = .recordDecl r ∧
      x ∈ r.implicitFields ∧ q.tree.get? x = some m ∧ m.name = name := by
  have hwf := ht.toWellFormed
  obtain ⟨k, hk, -, -⟩ := hwf.root_parent hroot
  have hentered : ∀ {a}, .enter a ∈ done → ∃ n, t.get? a = some n :=
    fun ha => exists_of_enter_mem hwf hk (hsplit ▸ List.mem_append_left _ ha)
  obtain ⟨m, hm, hdecl, hname, hin⟩ := h.registered.entry (mem_lookup_iff.mp hx)
  rcases h.entry_entered (mem_lookup_iff.mp hx) with hmem | ⟨record, field, typeName, hmem, hfield⟩
  · obtain ⟨n, hn⟩ := hentered hmem
    obtain ⟨n', hn', hkind, hname', -⟩ := h.toWalked.node hn
    rw [hm] at hn'
    cases hn'
    have habove : ∀ a ∈ t.ancestors x, .enter a ∈ done := fun a ha => enter_mem_of_prefix hwf hroot hsplit hmem ha
    rw [h.toWalked.enclosingScope?_eq hwf hn habove] at hin
    obtain ⟨owner, howner, hs⟩ := Option.bind_eq_some_iff.mp hin
    refine .inl ⟨n, hmem, hn, hkind ▸ hdecl, Eq.trans ?_ hname, owner, howner, hs⟩
    rw [declaredName, declaredName, Node.isRecord, Node.isRecord, hkind, hname']
  · dsimp only at hfield hm hin
    rw [hm] at hfield
    cases hfield
    obtain ⟨record', n, r, hparent, hn, hr, hf⟩ := h.proper.exists_owner hm rfl rfl
    obtain rfl : record = record' := Option.some.inj hparent
    obtain ⟨n₀, hn₀⟩ := hentered hmem
    obtain ⟨n', hn', hb⟩ := h.toExtends.node hn₀
    rw [hn] at hn'
    cases hn'
    have hopens : n₀.payload.opens? = some .record := by
      rw [← hb.payload.opens?_eq, hr]
      rfl
    obtain ⟨s', hs'⟩ := Option.isSome_iff_exists.mp (h.scope_opened hmem hn₀ hopens)
    rw [h.proper.enclosingScope?_of_child hn (Node.mem_children_of_implicitFields hr hf), hs', Option.some_or] at hin
    cases hin
    exact .inr ⟨record, n, r, _, hs', hn, hr, hf, hm, hname⟩

/-- In a unit whose names are distinct, a name is free before its declaration is entered. -/
theorem Invariant.lookup_eq_nil (h : Invariant config.separator t done q) (ht : t.Proper config.separator)
    (hroot : t.root = some root) (hd : t.Distinct config.separator root)
    (hsplit : steps t t.depthLimit root = done ++ .enter id :: rest) (hn : t.get? id = some n)
    (hdecl : n.kind.isDeclaration = true) (hnamed : declaredName config.separator n ≠ "")
    (hs : q.tree.enclosingScope? q.scopes id = some s) :
    q.scopes.lookup s (declaredName config.separator n) = [] := by
  have hwf := ht.toWellFormed
  have hnests : ∀ {x}, .enter x ∈ steps t t.depthLimit root → t.Nests root x := (hwf.enter_mem_iff hroot).mp
  have habove : ∀ a ∈ t.ancestors id, .enter a ∈ done := fun a ha => enter_mem_of_split hwf hroot hsplit ha
  rw [h.toWalked.enclosingScope?_eq hwf hn habove] at hs
  obtain ⟨owner, howner, hs⟩ := Option.bind_eq_some_iff.mp hs
  have hself : t.DeclaresAt config.separator root owner (declaredName config.separator n) id :=
    ⟨hnests (hsplit ▸ by simp), howner, hnamed, n, hn, hdecl, rfl⟩
  rw [List.eq_nil_iff_forall_not_mem]
  intro x hx
  rcases h.mem_lookup_cases ht hroot hsplit hx with
    ⟨m, hmem, hm, hdecl', hname, owner', howner', hs'⟩ | ⟨record, k', r, m, hs', hk', hr, hf, hm, hname⟩
  · obtain rfl := scopeOf?_inj hs hs'
    have hother : t.DeclaresAt config.separator root owner (declaredName config.separator n) x :=
      ⟨hnests (hsplit ▸ List.mem_append_left _ hmem), howner', hnamed, m, hm, hdecl', hname⟩
    exact (enter_not_mem_of_split hwf hsplit).1 (hd.alone hother hself ▸ hmem)
  · obtain rfl := scopeOf?_inj hs hs'
    obtain ⟨o, ho, -⟩ := opens_of_opener? howner
    have hrecord : t.kind? owner = some .recordDecl := by
      rw [← h.toExtends.kind?_recordDecl_iff ho, kind?, hk', Option.map_some, Node.kind, hr]
      rfl
    refine hd.notImplicit hself hrecord ?_
    rw [← h.toExtends.implicitNames_eq hwf ho, ← hname]
    exact (h.registered.supplied hk' hr hs).name_mem hf hm

end

end Registration

namespace Tree
open Registration ScopeTree

variable {config : Config} {t : Tree} {root owner x : NodeId} {name : String} {s : ScopeId}
  {p : Registration.Progress}

/-- Registration succeeds on a unit whose names are distinct, and nothing is dropped. -/
theorem registers_of_distinct (ht : t.Proper config.separator) (hroot : t.root = some root)
    (hd : t.Distinct config.separator root) : ∃ p, Registers config t root p ∧ p.duplicates = #[] := by
  have hwf := ht.toWellFormed
  obtain ⟨k, hk, hkind, -⟩ := hwf.root_parent hroot
  have hnests : ∀ {x}, .enter x ∈ steps t t.depthLimit root → t.Nests root x := (hwf.enter_mem_iff hroot).mp
  have himplicit : ¬ IsImplicitField t root := by
    rintro ⟨m, f, hm, hf, -⟩
    rw [hk] at hm
    cases hm
    rw [Node.kind, hf] at hkind
    cases hkind
  have hrun : ∃ p, runSteps (exec config) (steps t t.depthLimit root) { tree := t } = .ok () p ∧
      Invariant config.separator t (steps t t.depthLimit root) p ∧ p.duplicates = #[] := by
    refine exists_runSteps (I := fun done q => Invariant config.separator t done q ∧ q.duplicates = #[])
      ⟨.start ht, rfl⟩ ?_
    rintro done s rest q hsplit ⟨h, hnone⟩
    have hplaces : ∀ {x n s}, t.Nests root x → t.get? x = some n → s ∈ n.payload.slots →
        ∃ k, q.tree.get? s.child = some k ∧ s.allows k.kind = true := by
      intro x n s hx hn hs
      obtain ⟨k, hk, hallows⟩ := hd.allowed hx hn hs
      obtain ⟨k', hk', hkind, -⟩ := h.toWalked.node hk
      exact ⟨k', hk', hkind ▸ hallows⟩
    cases s with
    | enter id =>
      have hid : .enter id ∈ steps t t.depthLimit root := hsplit ▸ by simp
      obtain ⟨n, hn⟩ := exists_of_enter_mem hwf hk hid
      have hqn := h.pending (enter_not_mem_of_split hwf hsplit).1 hn
      have hfree : ∀ s, q.tree.enclosingScope? q.scopes id = some s → n.kind.isDeclaration = true →
          declaredName config.separator n ≠ "" → holder? q s (declaredName config.separator n) = none := by
        intro s hs hdecl hnamed
        rw [holder?, h.lookup_eq_nil ht hroot hd hsplit hn hdecl hnamed hs]
        rfl
      obtain ⟨q', hx, hsame⟩ := enter_run_of_free h.proper hqn hfree fun s hs => hplaces (hnests hid) hn hs
      exact ⟨q', hx, h.step ht hk himplicit hsplit hx, hsame.trans hnone⟩
    | check owner slot =>
      have hcheck : .check owner slot ∈ steps t t.depthLimit root := hsplit ▸ by simp
      obtain ⟨howner, n, hn, hs⟩ := check_mem_steps_iff.mp hcheck
      obtain ⟨n', hn', -⟩ := h.toExtends.node hn
      obtain ⟨k', hk', hallows⟩ := hplaces (hnests howner) hn hs
      have hx : (exec config (.check owner slot)).run q = .ok () q := by
        rw [exec, run_bind_ok (fetch_run hn'), checkSlot_run_eq hk', if_pos hallows]
      exact ⟨q, hx, h.step ht hk himplicit hsplit hx, hnone⟩
  obtain ⟨p, hrun, -, hnone⟩ := hrun
  exact ⟨p, ⟨ht, rfl, hroot, hrun⟩, hnone⟩

namespace RegistersIn

/-- All nodes around one that is entered are entered. -/
theorem enter_above (h : Registers config t root p) (hx : t.Nests root x) {a : NodeId} (ha : a ∈ t.ancestors x) :
    .enter a ∈ steps t t.depthLimit root :=
  (h.proper.enter_mem_iff h.root_eq).mpr (h.proper.nests_of_mem_ancestors h.root_eq hx ha)

/-- If nothing is dropped, every declaration is entered under its name. -/
theorem exists_entry (h : Registers config t root p) (hnone : p.duplicates = #[])
    (hx : t.DeclaresAt config.separator root owner name x) :
    ∃ s, p.scopes.scopeOf? owner = some s ∧ x ∈ p.scopes.lookup s name := by
  have hwf := h.proper.toWellFormed
  have hmem := (hwf.enter_mem_iff h.root_eq).mpr hx.nests
  obtain ⟨n, hn, hdecl, hname⟩ := hx.node
  obtain ⟨done, rest, q, q', hsplit, hq, hstep, hrest⟩ := exists_step_of_mem hmem h.registration
  have hw : Walked {config.separator} t done q := .run h.proper rfl hq
  have hqn := hw.pending (enter_not_mem_of_split hwf hsplit).1 hn
  have habove : ∀ a ∈ t.ancestors x, .enter a ∈ done := fun a ha => enter_mem_of_split hwf h.root_eq hsplit ha
  obtain ⟨s, hs⟩ := hw.exists_scopeOf?_opener hx.opener habove
  have hscope : q.tree.enclosingScope? q.scopes x = some s := by
    rw [hw.enclosingScope?_eq hwf hn habove, hx.opener]
    exact hs
  obtain ⟨q₁, inner, hd, -, ho⟩ := enter_run_ok hw.proper hqn hstep
  rw [hscope, declareIn_run_of_named hdecl (hname ▸ hx.named), hname] at hd
  have hgrows : q₁.GrowsTo p := ho.growsTo.trans (runSteps_growsTo (hw.step rfl hstep).proper rfl hrest)
  split at hd
  · cases hd
    have hentry : (⟨s, name, x⟩ : Entry) ∈ p.scopes.entries := by
      refine hgrows.entries ?_
      rw [declare_eq_declareAll _ (lt_size_of_scopeOf? hs)]
      exact mem_entries_declareAll.mpr (.inr (List.mem_singleton_self _))
    obtain ⟨-, -, -, -, hin⟩ := h.registered.registered.entry hentry
    rw [h.walked.enclosingScope?_eq hwf hn fun a ha => h.enter_above hx.nests ha, hx.opener] at hin
    exact ⟨s, hin, mem_lookup_iff.mpr hentry⟩
  · cases hpolicy : config.duplicates with
    | fatal =>
      rw [hpolicy] at hd
      cases hd
    | keepFirst =>
      rw [hpolicy] at hd
      cases hd
      have hdropped := hgrows.duplicates (Array.mem_push_self ..)
      rw [hnone] at hdropped
      exact absurd hdropped (Array.not_mem_empty _)

/-- A unit that registers without duplicates, each name once in a scope, has distinct names. -/
theorem distinct (h : Registers config t root p) (hnone : p.duplicates = #[])
    (hsingle : ∀ {s name x y}, x ∈ p.scopes.lookup s name → y ∈ p.scopes.lookup s name → x = y) :
    t.Distinct config.separator root := by
  have hwf := h.proper.toWellFormed
  have hentered : ∀ {x}, t.Nests root x → .enter x ∈ steps t t.depthLimit root := (hwf.enter_mem_iff h.root_eq).mpr
  constructor
  case allowed =>
    intro x n s hx hn hs
    obtain ⟨m, hm, -⟩ := hwf.parent_of_child hn (Payload.child_mem_children hs)
    obtain ⟨done, rest, q, q', hsplit, hq, hstep, hrest⟩ :=
      exists_step_of_mem (check_mem_steps_iff.mpr ⟨hentered hx, n, hn, hs⟩) h.registration
    have hw : Walked {config.separator} t done q := .run h.proper rfl hq
    obtain ⟨n', hn', -⟩ := hw.toExtends.node hn
    obtain ⟨m', hm', hkind, -⟩ := hw.node hm
    refine ⟨m, hm, ?_⟩
    rw [exec, run_bind_ok (fetch_run hn'), checkSlot_run_eq hm', hkind] at hstep
    by_contra hallows
    rw [if_neg hallows] at hstep
    cases hstep
  case alone =>
    intro o name x y hx hy
    obtain ⟨s, hs, hx'⟩ := h.exists_entry hnone hx
    obtain ⟨s', hs', hy'⟩ := h.exists_entry hnone hy
    rw [hs] at hs'
    cases hs'
    exact hsingle hx' hy'
  case notImplicit =>
    intro o name x hx hrecord hname
    obtain ⟨s, hs, hx'⟩ := h.exists_entry hnone hx
    obtain ⟨n, hn, -⟩ := Option.map_eq_some_iff.mp hrecord
    have hw := h.walked
    have hkind := (hw.toExtends.kind?_recordDecl_iff hn).mpr hrecord
    obtain ⟨n', hn', hk'⟩ := Option.map_eq_some_iff.mp hkind
    obtain ⟨r, hr⟩ := Node.exists_record hk'
    have hreg := h.registered.registered
    have hsup := hreg.supplied hn' hr hs
    rw [← hw.toExtends.implicitNames_eq hwf hn] at hname
    obtain ⟨f, hf, m, hm, rfl⟩ := hsup.exists_of_name_mem hname
    obtain ⟨m', hm', hentry⟩ := hreg.implicit hn' hr hs hf
    rw [hm] at hm'
    cases hm'
    obtain rfl := hsingle hx' (mem_lookup_iff.mpr hentry)
    obtain ⟨k', hk', -⟩ := hx.node
    obtain ⟨field, typeName, hf⟩ := hsup.implicit hf
    exact not_implicit_of_enter_mem h.proper h.root_not_implicit (hentered hx.nests)
      (hw.toExtends.isImplicitField hk' ⟨_, _, hf, rfl, rfl⟩)

/-- Nothing is declared under an empty name. -/
theorem entry_named (h : Registers config t root p) {e : Entry} (he : e ∈ p.scopes.entries) : e.name ≠ "" := by
  have hjoin : ∀ outer, Text.joinPath config.separator outer "this" ≠ "" := by
    intro outer heq
    have hlength := congrArg String.length heq
    rw [Text.length_joinPath] at hlength
    exact absurd hlength (by simp)
  obtain ⟨k, hk, -, -⟩ := h.proper.root_parent h.root_eq
  refine Walked.induction (I := fun _ q => ∀ e ∈ q.scopes.entries, e.name ≠ "") h.proper h.language hk
    (List.append_nil _).symm h.registration (fun e he => absurd he (Array.not_mem_empty e)) (fun hnamed => hnamed) ?_ e
    he
  intro done rest id n q q' _ _ _ he hnamed
  obtain ⟨q₁, inner, hd, ho⟩ := he.effect
  have hnamed₁ : ∀ e ∈ q₁.scopes.entries, e.name ≠ "" := by
    cases hd with
    | skipped | dropped => exact hnamed
    | entered hin _ hname =>
      rw [declare_eq_declareAll _ (lt_size_of_enclosingScope? hin)]
      intro e he
      rcases mem_entries_declareAll.mp he with he | he
      · exact hnamed e he
      · rw [List.mem_singleton.mp he]
        exact hname
  cases ho with
  | transparent | plain => exact hnamed₁
  | record =>
    intro e he
    rcases mem_entries_declareAll.mp he with he | he
    · exact hnamed₁ e he
    · rcases List.mem_append.mp he with he | he
      · obtain ⟨f, -, rfl⟩ := List.mem_map.mp he
        exact (by decide : "this" ≠ "")
      · obtain ⟨o, -, rfl⟩ := List.mem_map.mp he
        exact hjoin _

/-- If nothing is dropped, the tree tells what is declared under a name: the declarations of the name in the scope,
and the implicit members of that name if it is the scope of a record. -/
theorem mem_lookup_iff (h : Registers config t root p) (hnone : p.duplicates = #[])
    (howner : p.scopes.scopeOf? owner = some s) :
    x ∈ p.scopes.lookup s name ↔ t.DeclaresAt config.separator root owner name x ∨
      ∃ n r m, p.tree.get? owner = some n ∧ n.payload = .recordDecl r ∧ x ∈ r.implicitFields ∧
        p.tree.get? x = some m ∧ m.name = name := by
  have hwf := h.proper.toWellFormed
  constructor
  · intro hx
    rcases h.registered.mem_lookup_cases h.proper h.root_eq (List.append_nil _).symm hx with
      ⟨n, hmem, hn, hdecl, hname, owner', hopener, hs⟩ | ⟨owner', n, r, m, hs, hn, hr, hf, hm, hname⟩
    · obtain rfl := scopeOf?_inj howner hs
      exact .inl ⟨(hwf.enter_mem_iff h.root_eq).mp hmem, hopener,
        h.entry_named (ScopeTree.mem_lookup_iff.mp hx), n, hn, hdecl, hname⟩
    · obtain rfl := scopeOf?_inj howner hs
      exact .inr ⟨n, r, m, hn, hr, hf, hm, hname⟩
  · rintro (hx | ⟨n, r, m, hn, hr, hf, hm, rfl⟩)
    · obtain ⟨s', hs', hx⟩ := h.exists_entry hnone hx
      rw [howner] at hs'
      cases hs'
      exact hx
    · obtain ⟨m', hm', hentry⟩ := h.registered.registered.implicit hn hr howner hf
      rw [hm] at hm'
      cases hm'
      exact ScopeTree.mem_lookup_iff.mpr hentry

end RegistersIn
end Tree
end NameResolution
