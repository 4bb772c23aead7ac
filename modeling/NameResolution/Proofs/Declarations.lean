import NameResolution.Proofs.Fixpoint
import NameResolution.Proofs.Mirroring
import NameResolution.Proofs.Registration.Entries

/-!
# No declaration is lost, doubled or misplaced

A declaration that has a name is declared exactly once, in the scope of the nearest node above that has one, or it is
dropped exactly once, for the first declaration there that had the name for itself before. Beside declarations only
implicit members are declared, and nothing else is dropped.
-/
namespace NameResolution
open Registration NameResolution.Tree

namespace Tree

/-- Registration declares the node before it comes to `d`: it goes in the order of the tree, and declares implicit members
when it comes to their record. -/
inductive DeclaredBefore (t : Tree) (root d : NodeId) : NodeId → Prop
  | source {x : NodeId} (notImplicit : ¬ IsImplicitField t x) (order : [x, d].Sublist (t.flatten root)) :
      DeclaredBefore t root d x
  | member {x record : NodeId} {name typeName : String} (node : t.get? x = some (implicitNode x record name typeName))
      (order : [record, d].Sublist (t.flatten root)) : DeclaredBefore t root d x

/-- The node is a declaration of the source that registration comes to. -/
structure SourceDeclaration (t : Tree) (root d : NodeId) (n : Node) : Prop where
  node : t.get? d = some n
  reached : t.Reached root d
  isDeclaration : n.kind.isDeclaration = true
  notImplicit : ¬ IsImplicitField t d

end Tree

namespace Registration
variable (reg : Registration) (t : Tree) (root : NodeId)

/-- The declaration `d` may be declared under the name: it is callable, or nothing in the scope has claimed the name
before. -/
def Admits (s : ScopeId) (name : String) (d : NodeId) : Prop :=
  (t.kind? d).any NodeKind.isCallable = true ∨
    ∀ x ∈ reg.scopes.lookup s name, ClaimsName t x → ¬ t.DeclaredBefore root d x

/-- What has become of the declaration `d`, if it belongs under the name in the scope. -/
structure Treats (s : ScopeId) (name : String) (d : NodeId) : Prop where
  nameless : name = "" → (∀ s' name', d ∉ reg.scopes.lookup s' name') ∧ reg.scopes.declaredIn? d = none ∧
    ∀ e ∈ reg.duplicates, e.first ≠ d ∧ e.repeated ≠ d
  declared : name ≠ "" → reg.Admits t root s name d → (reg.scopes.lookup s name).count d = 1 ∧
    (∀ s' name', d ∈ reg.scopes.lookup s' name' → s' = s ∧ name' = name) ∧ reg.scopes.declaredIn? d = some s ∧
    ∀ e ∈ reg.duplicates, e.repeated ≠ d
  dropped : name ≠ "" → ¬ reg.Admits t root s name d → (∀ s' name', d ∉ reg.scopes.lookup s' name') ∧
    reg.scopes.declaredIn? d = none ∧ ∃ first, t.DeclaredBefore root d first ∧
      (reg.scopes.lookup s name).find? (fun x => (t.kind? x).any NodeKind.isUniquePerScope) = some first ∧
      reg.duplicates.toList.filter (·.repeated == d) = [⟨name, first, d, s⟩]

/-- Every declaration of the unit at `root` is where it belongs or has been dropped, and nothing else is. -/
structure Complete (separator : String) : Prop where
  every : ∀ {d n}, t.SourceDeclaration root d n → ∃ owner s, t.opener? d = some owner ∧
    reg.scopes.scopeOf? owner = some s ∧ reg.Treats t root s (declaredName separator n) d
  declaredOnly : ∀ {s name x}, x ∈ reg.scopes.lookup s name → (∃ n, t.SourceDeclaration root x n) ∨
    ∃ record member typeName, t.Reached root record ∧ reg.scopes.scopeOf? record = some s ∧
      t.get? x = some (implicitNode x record member typeName)
  droppedOnly : ∀ e ∈ reg.duplicates, ∃ n, t.SourceDeclaration root e.repeated n

end Registration

namespace Tree
open ScopeTree

variable {languages : Set String} {config : Config} {t : Tree} {root d owner x : NodeId} {n : Node}
  {done rest : List Registration.Step} {q q' p : Progress} {s : ScopeId} {name : String}

/-- Two nodes are listed in one order only. -/
theorem WellFormed.not_sublist_swap (ht : t.WellFormed) (hroot : t.root = some root)
    (hsublist : [x, d].Sublist (t.flatten root)) : ¬ [d, x].Sublist (t.flatten root) := by
  have hnodup := (ht.lists_flatten hroot).nodup
  have horder : (t.flatten root).Pairwise fun a b => (t.flatten root).idxOf a < (t.flatten root).idxOf b := by
    rw [List.pairwise_iff_getElem]
    intro i j hi hj hij
    rwa [hnodup.idxOf_getElem, hnodup.idxOf_getElem]
  intro hswapped
  have hlt := List.rel_of_pairwise_cons (horder.sublist hsublist) (List.mem_singleton_self d)
  have hgt := List.rel_of_pairwise_cons (horder.sublist hswapped) (List.mem_singleton_self x)
  omega

namespace RegistersIn

/-- A source declaration that is reached has a node above that opens a scope. -/
theorem exists_opener (h : RegistersIn languages config t root p) (hd : p.tree.SourceDeclaration root d n) :
    ∃ owner, p.tree.opener? d = some owner := by
  have hp := h.walked.proper.toWellFormed
  obtain ⟨k, hk, hkind, -⟩ := hp.root_parent h.root_eq'
  rcases hp.below_root h.root_eq' hd.node with rfl | habove
  · have hn := hd.node
    rw [hk] at hn
    cases hn
    have hdecl := hd.isDeclaration
    rw [hkind] at hdecl
    cases hdecl
  · have hopens : p.tree.opensScope root = true := by
      rw [opensScope_eq, kind?, hk, Option.map_some, hkind]
      rfl
    exact Option.isSome_iff_exists.mp (List.find?_isSome.mpr ⟨root, habove, hopens⟩)

/-- What is entered is reached, and is no implicit field. -/
theorem reached_of_entered (h : RegistersIn languages config t root p) (hx : .enter x ∈ steps t t.depthLimit root) :
    p.tree.Reached root x ∧ ¬ IsImplicitField p.tree x :=
  (h.walked.proper.nests_iff (h.walked.proper.root_not_implicit h.root_eq')).mp (h.enter_mem_iff.mp hx)

end RegistersIn

namespace EntersAt

variable (h : EntersAt languages config t root d done rest q q' p)
include h

/-- Of all that ends up under a name, just that was there when the node is entered which is declared before. -/
theorem mem_lookup_iff (hs : s.index < q.scopes.size) :
    x ∈ q.scopes.lookup s name ↔ x ∈ p.scopes.lookup s name ∧ p.tree.DeclaredBefore root d x := by
  have hsteps := h.split
  obtain ⟨added, hadded, hfrom⟩ := runSteps_entries h.reached.proper h.language h.run
  obtain ⟨more, hmore, hlater⟩ := lookup_append hadded s name
  rw [hmore, List.mem_append]
  constructor
  · intro hx
    refine ⟨.inl hx, ?_⟩
    obtain ⟨k, hk, -⟩ := h.proper.root_parent h.root_eq
    have horder : ∀ {a}, Step.enter a ∈ done → [a, d].Sublist (p.tree.flatten root) := by
      intro a ha
      refine h.entered_sublist ?_
      rw [hsteps]
      exact (List.singleton_sublist.mpr ha).append ((List.nil_sublist rest).cons_cons _)
    cases origin_of_mem_entries h.proper h.language hk h.root_not_implicit hsteps h.before
        (ScopeTree.mem_lookup_iff.mp hx) with
    | source entered =>
      exact .source (h.reached_of_entered (hsteps ▸ List.mem_append_left _ entered)).2 (horder entered)
    | member entered _ node => exact .member (h.onward.2 node NodeKind.noConfusion) (horder entered)
  · rintro ⟨hx | hx, hbefore⟩
    · exact hx
    · exfalso
      rcases hfrom _ (hlater x hx) with hentered | hnew
      · cases hbefore with
        | member node =>
          exact (h.reached_of_entered (hsteps ▸ List.mem_append_right _ hentered)).2 ⟨_, _, node, rfl, rfl⟩
        | source _ order =>
          refine h.walked.proper.not_sublist_swap h.root_eq' order ?_
          rcases List.mem_cons.mp hentered with heq | hrest
          · cases heq
            exact order
          · refine h.entered_sublist ?_
            rw [hsteps]
            exact ((List.singleton_sublist.mpr hrest).cons_cons _).trans (List.sublist_append_right done _)
      · exact absurd hs (Nat.not_lt.mpr hnew)

/-- What claims the name when the node is entered claims it in the end. -/
theorem holder?_eq : holder? q s name =
    (q.scopes.lookup s name).find? fun x => (p.tree.kind? x).any NodeKind.isUniquePerScope := by
  rw [holder?]
  refine List.find?_congr fun x hx => ?_
  obtain ⟨m, hm, hdecl⟩ := h.reached.grounded.declared (ScopeTree.mem_lookup_iff.mp hx)
  obtain ⟨m', hm', hb⟩ := h.onward.1.node hm
  rw [kind?, kind?, hm, hm', Option.map_some, Option.map_some, kind_eq_of_isDeclaration hb hdecl]

theorem holder?_eq_none_iff (hs : s.index < q.scopes.size) : holder? q s name = none ↔
    ∀ x ∈ p.scopes.lookup s name, ClaimsName p.tree x → ¬ p.tree.DeclaredBefore root d x := by
  rw [h.holder?_eq, List.find?_eq_none]
  constructor
  · exact fun hnone x hx hclaims hbefore => hnone x ((h.mem_lookup_iff hs).mpr ⟨hx, hbefore⟩) hclaims
  · intro hfree x hx hclaims
    obtain ⟨hx', hbefore⟩ := (h.mem_lookup_iff hs).mp hx
    exact hfree x hx' hclaims hbefore

/-- The declaration that holds the name is the first of all that claim it. -/
theorem of_holder?_eq_some {first : NodeId} (hs : s.index < q.scopes.size) (hfirst : holder? q s name = some first) :
    p.tree.DeclaredBefore root d first ∧ (p.scopes.lookup s name).find?
      (fun x => (p.tree.kind? x).any NodeKind.isUniquePerScope) = some first := by
  rw [h.holder?_eq] at hfirst
  obtain ⟨added, hadded, -⟩ := runSteps_entries h.reached.proper h.language h.run
  obtain ⟨more, hmore, -⟩ := lookup_append hadded s name
  refine ⟨((h.mem_lookup_iff hs).mp (List.mem_of_find?_eq_some hfirst)).2, ?_⟩
  rw [hmore, List.find?_append, hfirst]
  rfl

/-- What has become of a source declaration in the end is decided when it is entered. -/
theorem fate (hkeep : config.duplicates = .keepFirst) (hd : p.tree.SourceDeclaration root d n)
    (hscope : q.tree.enclosingScope? q.scopes d = some s) :
    Fate s (declaredName config.separator n) d
      (if n.kind.isUniquePerScope then holder? q s (declaredName config.separator n) else none)
      (p.scopes.entriesOf d) (p.dropsOf d) := by
  have hnot := enter_not_mem_of_split h.proper.toWellFormed h.split
  obtain ⟨m, hm⟩ := h.exists_node
  have hqm := h.reached.pending hnot.1 hm
  obtain ⟨m', hm', hkind, hname, -⟩ := h.walked.node hm
  rw [hd.node] at hm'
  cases hm'
  have hdeclared : declaredName config.separator n = declaredName config.separator m := by
    rw [declaredName, declaredName, Node.isRecord, Node.isRecord, hkind, hname]
  have himplicit : ∀ {T k}, t.Extends T → T.get? d = some k →
      ∀ record name typeName, k ≠ implicitNode d record name typeName := by
    rintro T _ hT hk record name typeName rfl
    exact not_implicit_of_enter_mem h.proper h.root_not_implicit h.entered
      (hT.isImplicitField hm ⟨_, _, hk, rfl, rfl⟩)
  obtain ⟨hentries, hdrops⟩ := runSteps_said h.proper h.language hnot.1 hm (himplicit (.refl t) hm) h.before
  have hq' := h.reached.step h.language h.step
  obtain ⟨m', hm', -⟩ := hq'.toExtends.node hm
  obtain ⟨hentries', hdrops'⟩ :=
    runSteps_said hq'.proper h.language hnot.2 hm' (himplicit hq'.toExtends hm') h.after
  rw [hentries', hdrops', hdeclared, hkind]
  exact fate_of_enter hkeep h.reached.proper h.language hqm (hkind ▸ hd.isDeclaration) hscope hentries hdrops h.step

/-- A declaration is admitted if its name is not held when it is entered. -/
theorem admits_iff (hd : p.tree.SourceDeclaration root d n) (hs : s.index < q.scopes.size) :
    Registration.Admits ⟨p.scopes, p.duplicates⟩ p.tree root s name d ↔
      (if n.kind.isUniquePerScope then holder? q s name else none) = none := by
  have hcallable : (p.tree.kind? d).any NodeKind.isCallable = !n.kind.isUniquePerScope := by
    have hkind := n.kind.isDeclaration_eq
    rw [hd.isDeclaration] at hkind
    rw [kind?, hd.node, Option.map_some, Option.any_some]
    grind
  rw [Admits, hcallable]
  cases n.kind.isUniquePerScope with
  | false => simp
  | true =>
    rw [if_pos rfl, h.holder?_eq_none_iff hs]
    exact or_iff_right Bool.false_ne_true

end EntersAt

namespace RegistersIn

theorem sourceDeclaration_of_entered (h : RegistersIn languages config t root p)
    (hx : .enter x ∈ steps t t.depthLimit root) (hn : p.tree.get? x = some n) (hdecl : n.kind.isDeclaration = true) :
    p.tree.SourceDeclaration root x n :=
  ⟨hn, (h.reached_of_entered hx).1, hdecl, (h.reached_of_entered hx).2⟩

/-- What has become of a source declaration. -/
theorem exists_fate (h : RegistersIn languages config t root p) (hkeep : config.duplicates = .keepFirst)
    (hd : p.tree.SourceDeclaration root d n) : ∃ owner s done rest q q',
      EntersAt languages config t root d done rest q q' p ∧ p.tree.opener? d = some owner ∧
        p.scopes.scopeOf? owner = some s ∧ s.index < q.scopes.size ∧
        Fate s (declaredName config.separator n) d
          (if n.kind.isUniquePerScope then holder? q s (declaredName config.separator n) else none)
          (p.scopes.entriesOf d) (p.dropsOf d) := by
  have hnests := (h.walked.proper.nests_iff (h.walked.proper.root_not_implicit h.root_eq')).mpr
    ⟨hd.reached, hd.notImplicit⟩
  obtain ⟨done, rest, q, q', hat⟩ := h.exists_entersAt hnests
  obtain ⟨owner, hopener⟩ := h.exists_opener hd
  obtain ⟨s, hs, hscope⟩ := hat.exists_scope hopener
  exact ⟨owner, s, done, rest, q, q', hat, hopener, hs, lt_size_of_enclosingScope? hscope, hat.fate hkeep hd hscope⟩

theorem exists_sourceDeclaration_of_dropped (h : RegistersIn languages config t root p) {e : Duplicate}
    (he : e ∈ p.duplicates) : ∃ n, p.tree.SourceDeclaration root e.repeated n := by
  obtain ⟨k, hk, -⟩ := h.proper.root_parent h.root_eq
  have hfrom : ∀ e ∈ p.duplicates, .enter e.repeated ∈ steps t t.depthLimit root ∧
      ∃ n, t.get? e.repeated = some n ∧ n.kind.isDeclaration = true := by
    refine Walked.induction (I := fun done q => ∀ e ∈ q.duplicates, .enter e.repeated ∈ done ∧
      ∃ n, t.get? e.repeated = some n ∧ n.kind.isDeclaration = true) h.proper h.language hk (List.append_nil _).symm
      h.registration (fun e he => absurd he (Array.not_mem_empty e)) ?_ ?_
    · exact fun hq e he => ⟨List.mem_append_left _ (hq e he).1, (hq e he).2⟩
    · intro done rest id n q q' _ _ hn henters hq e he
      obtain ⟨added, hadded, hself⟩ := henters.exists_duplicates
      rw [← Array.mem_toList_iff, hadded, List.mem_append, Array.mem_toList_iff] at he
      rcases he with he | he
      · exact ⟨List.mem_append_left _ (hq e he).1, (hq e he).2⟩
      · obtain ⟨heq, hdecl⟩ := hself e he
        rw [heq]
        exact ⟨List.mem_append_right _ (List.mem_singleton_self _), n, hn, hdecl⟩
  obtain ⟨hentered, n, hn, hdecl⟩ := hfrom e he
  obtain ⟨n', hn', hkind, -⟩ := h.walked.node hn
  exact ⟨n', h.sourceDeclaration_of_entered hentered hn' (hkind ▸ hdecl)⟩

/-- The declaration that one was dropped for is declared. -/
theorem first_mem_lookup (h : RegistersIn languages config t root p) (hkeep : config.duplicates = .keepFirst)
    {e : Duplicate} (he : e ∈ p.duplicates) : e.first ∈ p.scopes.lookup e.scope e.name := by
  obtain ⟨n, hd⟩ := h.exists_sourceDeclaration_of_dropped he
  obtain ⟨_, s, _, _, q, _, hat, -, -, hsize, hfate⟩ := h.exists_fate hkeep hd
  have hmem : e ∈ p.dropsOf e.repeated := Progress.mem_dropsOf.mpr ⟨he, rfl⟩
  obtain ⟨name, first, d, s'⟩ := e
  generalize p.dropsOf d = drops at hfate hmem
  generalize p.scopes.entriesOf d = entries at hfate
  cases hfate with
  | nameless | entered => cases hmem
  | dropped named taken =>
    cases List.mem_singleton.mp hmem
    split at taken
    · exact List.mem_of_find?_eq_some (hat.of_holder?_eq_some hsize taken).2
    · cases taken

/-- Every source declaration is where it belongs, or has been dropped. -/
theorem treats (h : RegistersIn languages config t root p) (hkeep : config.duplicates = .keepFirst)
    (hd : p.tree.SourceDeclaration root d n) : ∃ owner s, p.tree.opener? d = some owner ∧
      p.scopes.scopeOf? owner = some s ∧
      Registration.Treats ⟨p.scopes, p.duplicates⟩ p.tree root s (declaredName config.separator n) d := by
  obtain ⟨owner, s, _, _, q, _, hat, hopener, hs, hsize, hfate⟩ := h.exists_fate hkeep hd
  refine ⟨owner, s, hopener, hs, ?_⟩
  have hadmits : Registration.Admits ⟨p.scopes, p.duplicates⟩ p.tree root s (declaredName config.separator n) d ↔
      (if n.kind.isUniquePerScope then holder? q s (declaredName config.separator n) else none) = none :=
    hat.admits_iff hd hsize
  generalize hentries : p.scopes.entriesOf d = entries at hfate
  generalize hdrops : p.dropsOf d = drops at hfate
  cases hfate with
  | nameless unnamed =>
    have hnowhere := not_mem_lookup_of_entriesOf hentries
    refine ⟨fun _ => ⟨hnowhere, declaredIn?_of_entriesOf hentries,
      fun e he => ⟨?_, Progress.repeated_ne_of_dropsOf hdrops e he⟩⟩, fun named => absurd unnamed named,
      fun named => absurd unnamed named⟩
    rintro rfl
    exact hnowhere _ _ (h.first_mem_lookup hkeep he)
  | entered named free =>
    refine ⟨fun unnamed => absurd unnamed named, fun _ _ => ⟨?_, ?_, ?_, Progress.repeated_ne_of_dropsOf hdrops⟩,
      fun _ hno => absurd (hadmits.mpr free) hno⟩
    · dsimp only
      rw [count_lookup, hentries]
      simp
    · intro s' name' hmem
      have hentry := mem_entriesOf_of_mem_lookup hmem
      rw [hentries, List.mem_singleton] at hentry
      cases hentry
      exact ⟨rfl, rfl⟩
    · dsimp only
      rw [declaredIn?_eq, hentries]
      rfl
  | @dropped first named taken =>
    have hheld : holder? q s (declaredName config.separator n) = some first := by
      split at taken
      · exact taken
      · cases taken
    obtain ⟨hbefore, hfirst⟩ := hat.of_holder?_eq_some hsize hheld
    refine ⟨fun unnamed => absurd unnamed named, fun _ hyes => ?_,
      fun _ _ => ⟨not_mem_lookup_of_entriesOf hentries, declaredIn?_of_entriesOf hentries,
        first, hbefore, hfirst, hdrops⟩⟩
    rw [hadmits.mp hyes] at taken
    cases taken

theorem complete (h : RegistersIn languages config t root p) (hkeep : config.duplicates = .keepFirst) :
    Registration.Complete ⟨p.scopes, p.duplicates⟩ p.tree root config.separator := by
  obtain ⟨k, hk, -⟩ := h.proper.root_parent h.root_eq
  refine ⟨h.treats hkeep, fun hx => ?_, fun e he => h.exists_sourceDeclaration_of_dropped he⟩
  have hentry := ScopeTree.mem_lookup_iff.mp hx
  obtain ⟨n, hn, hdecl⟩ := h.walked.grounded.declared hentry
  cases origin_of_mem_entries h.proper h.language hk h.root_not_implicit (List.append_nil _).symm h.registration
      hentry with
  | source entered => exact .inl ⟨n, h.sourceDeclaration_of_entered entered hn hdecl⟩
  | member entered scope node => exact .inr ⟨_, _, _, (h.reached_of_entered entered).1, scope, node⟩

end RegistersIn
end Tree

end NameResolution
