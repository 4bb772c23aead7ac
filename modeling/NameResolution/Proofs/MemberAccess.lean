import NameResolution.Proofs.ExplicitReceiver
import NameResolution.Proofs.Registration.Entries
import NameResolution.Proofs.Registration.RecordNames

/-!
# Members are looked up in one record

The base of an access leads to at most one record: the one that it is bound to, or the one that a type names. The member
of the access is looked up in the scope of that record and nowhere else, and without a record it is bound to nothing. What
a base is bound to is what the same rule says of it if it is an access itself, so that the rule holds along chains.
-/
namespace NameResolution
open NameResolution.Tree ScopeTree Registration

/-- The declarations that a reference is looking for, or all of them if there are none. -/
def Tree.bestRanked (t : Tree) (role : Role) (ds : List NodeId) : List NodeId :=
  if t.suited role ds = [] then ds else t.suited role ds

/-- `d` is the first record under a name in the nearest of the scopes `levels` that holds a record under it. -/
def NearestRecord (t : Tree) (S : ScopeTree) (levels : List ScopeId) (name : String) (d : NodeId) : Prop :=
  ∃ nearer s further before after, levels = nearer ++ s :: further ∧ S.lookup s name = before ++ d :: after ∧
    t.kind? d = some .recordDecl ∧ (∀ x ∈ before, t.kind? x ≠ some .recordDecl) ∧
    ∀ q ∈ nearer, ∀ x ∈ S.lookup q name, t.kind? x ≠ some .recordDecl

/-- The record that the text of a type names inside the scopes `levels`, the innermost first, if it names one. -/
inductive TypeNames (separator : String) (t : Tree) (S : ScopeTree) (root : NodeId) (levels : List ScopeId)
    (text : String) : Option NodeId → Prop
  | nameless (empty : TypeName.normalize text = "") : TypeNames separator t S root levels text none
  /-- The whole name is the qualified name of some record, wherever that stands. -/
  | qualified {d : NodeId} (named : TypeName.normalize text ≠ "")
      (first : t.FirstNamed separator root (TypeName.normalize text) d) : TypeNames separator t S root levels text (some d)
  | nearest {d : NodeId} (named : TypeName.normalize text ≠ "")
      (unqualified : ∀ x, ¬ t.RecordNamed separator root (TypeName.normalize text) x)
      (found : NearestRecord t S levels (Text.lastSegment separator (TypeName.normalize text)) d) :
      TypeNames separator t S root levels text (some d)
  | unknown (named : TypeName.normalize text ≠ "")
      (unqualified : ∀ x, ¬ t.RecordNamed separator root (TypeName.normalize text) x)
      (nothing : ∀ q ∈ levels, ∀ x ∈ S.lookup q (Text.lastSegment separator (TypeName.normalize text)),
        t.kind? x ≠ some .recordDecl) : TypeNames separator t S root levels text none

/-- The record that the base of an access leads to, if it leads to one. -/
inductive BaseRecord (separator : String) (t : Tree) (S : ScopeTree) (root : NodeId) (levels : List ScopeId)
    (base : NodeId) : Option NodeId → Prop
  | record {d : NodeId} (bound : t.resolution? base = some (.single d)) (isRecord : t.kind? d = some .recordDecl) :
      BaseRecord separator t S root levels base (some d)
  | typed {d : NodeId} {n : Node} {text : String} {r : Option NodeId} (bound : t.resolution? base = some (.single d))
      (node : t.get? d = some n) (noRecord : n.kind ≠ .recordDecl) (type : n.payload.typeName? = some text)
      (names : TypeNames separator t S root levels text r) : BaseRecord separator t S root levels base r
  | untyped {d : NodeId} {n : Node} (bound : t.resolution? base = some (.single d)) (node : t.get? d = some n)
      (noRecord : n.kind ≠ .recordDecl) (noType : n.payload.typeName? = none) :
      BaseRecord separator t S root levels base none
  | undecided {b : Resolution} (bound : t.resolution? base = some b) (notSingle : ∀ d, b ≠ .single d) :
      BaseRecord separator t S root levels base none
  | created {n : Node} {text : String} {arguments : List NodeId} {r : Option NodeId} (node : t.get? base = some n)
      (new : n.payload = .newExpr text arguments) (names : TypeNames separator t S root levels text r) :
      BaseRecord separator t S root levels base r
  | other {n : Node} (node : t.get? base = some n) (noReference : n.kind.isReference = false)
      (notNew : n.kind ≠ .newExpr) : BaseRecord separator t S root levels base none

/-- What a member is bound to, given the record that it is looked up in. -/
inductive MemberDenotes (policy : AmbiguityPolicy) (t : Tree) (S : ScopeTree) (role : Role) (name : String) :
    Option NodeId → Resolution → Prop
  | noRecord : MemberDenotes policy t S role name none .unresolved
  | inside {d : NodeId} {own : ScopeId} (record : t.kind? d = some .recordDecl) (scope : S.scopeOf? d = some own) :
      MemberDenotes policy t S role name (some d) (policy.apply (t.bestRanked role (S.lookup own name)))

theorem Tree.preferred_eq_bestRanked {t : Tree} {role : Role} {ds : List NodeId} (h : t.AreDeclarations ds) :
    t.preferred role ds = t.bestRanked role ds := by
  rw [bestRanked]
  split
  next hnone => exact preferred_of_unsuited h hnone
  next hsome => exact preferred_of_suited h hsome

section
variable {t : Tree} {S : ScopeTree} {levels : List ScopeId} {name : String} {d : NodeId}

def nearestRecord? (t : Tree) (S : ScopeTree) (levels : List ScopeId) (name : String) : Option NodeId :=
  levels.findSome? fun q => (S.lookup q name).find? fun d => t.kind? d == some .recordDecl

theorem nearestRecord?_eq_some_iff : nearestRecord? t S levels name = some d ↔ NearestRecord t S levels name d := by
  rw [nearestRecord?, List.findSome?_eq_some_iff, NearestRecord]
  simp only [List.find?_eq_some_iff_append, List.find?_eq_none, beq_iff_eq, Bool.not_eq_true', beq_eq_false_iff_ne]
  constructor
  · rintro ⟨nearer, s, further, hlevels, ⟨hk, before, after, hlookup, hbefore⟩, hnearer⟩
    exact ⟨nearer, s, further, before, after, hlevels, hlookup, hk, hbefore, hnearer⟩
  · rintro ⟨nearer, s, further, before, after, hlevels, hlookup, hk, hbefore, hnearer⟩
    exact ⟨nearer, s, further, hlevels, ⟨hk, before, after, hlookup, hbefore⟩, hnearer⟩

theorem nearestRecord?_eq_none_iff :
    nearestRecord? t S levels name = none ↔ ∀ q ∈ levels, ∀ x ∈ S.lookup q name, t.kind? x ≠ some .recordDecl := by
  simp only [nearestRecord?, List.findSome?_eq_none_iff, List.find?_eq_none, beq_iff_eq, ne_eq]

end

theorem Node.exists_new {n : Node} (h : n.kind = .newExpr) : ∃ text arguments, n.payload = .newExpr text arguments := by
  obtain ⟨_, _, _, _, payload⟩ := n
  cases payload with
  | newExpr text arguments => exact ⟨text, arguments, rfl⟩
  | _ => cases h

namespace Binding
variable {c : Context} {t : Tree} {d base : NodeId} {n : Node} {scope : ScopeId}

theorem recordOfDeclaration?_of_record (h : t.kind? d = some .recordDecl) :
    recordOfDeclaration? c t d scope = some d := by
  obtain ⟨n, hn, hk⟩ := Option.map_eq_some_iff.mp h
  rw [Node.kind] at hk
  simp only [recordOfDeclaration?, hn, Option.bind_eq_bind, Option.bind_some, hk, if_true]
  rfl

/-- Any other declaration leads to what its type names. -/
theorem recordOfDeclaration?_of_other (hn : t.get? d = some n) (hk : n.kind ≠ .recordDecl) :
    recordOfDeclaration? c t d scope = n.payload.typeName?.bind (recordOfType? c t · scope) := by
  rw [Node.kind] at hk
  simp only [recordOfDeclaration?, hn, Option.bind_eq_bind, Option.bind_some, if_neg hk]

theorem recordOfBase?_of_new {text : String} {arguments : List NodeId} (hn : t.get? base = some n)
    (hp : n.payload = .newExpr text arguments) :
    recordOfBase? c t base scope = recordOfType? c t text scope := by
  simp only [recordOfBase?, hn, Option.bind_eq_bind, Option.bind_some, hp]

/-- Bases that are neither names nor accesses nor new objects lead nowhere. -/
theorem recordOfBase?_of_other (hn : t.get? base = some n) (hk : n.kind.isReference = false) (hnew : n.kind ≠ .newExpr) :
    recordOfBase? c t base scope = none := by
  obtain ⟨_, _, _, _, payload⟩ := n
  rw [recordOfBase?, hn]
  cases payload with
  | reference | member => cases hk
  | newExpr => exact absurd rfl hnew
  | _ => rfl

end Binding

namespace Tree.PassIn
variable {languages : Set String} {config : Config} {t t' T : Tree} {u : ResolvedUnit} {e x base d : NodeId} {n : Node}
  {scope : ScopeId} {levels : List ScopeId} {text : String} {r : Option NodeId}

/-- Looking for what a type names comes to what it names. -/
theorem typeNames_iff (h : PassIn languages config t t' T u)
    (hlevels : (u.scopes.ancestors scope).map Prod.fst = levels) :
    TypeNames config.separator T u.scopes u.root levels text r ↔
      Binding.recordOfType? (u.context config) T text scope = r := by
  have hsome := fun {q d} => h.recordNamed?_eq_some_iff_firstNamed (q := q) (d := d) h.bound.proper h.toExtends
  have hnone := fun {q} => h.recordNamed?_eq_none_iff (q := q) h.bound.proper h.toExtends
  have hrecord : Binding.recordOfType? (u.context config) T text scope =
      if TypeName.normalize text = "" then none
      else (u.scopes.recordNamed? (TypeName.normalize text)).or
        (nearestRecord? T u.scopes levels (Text.lastSegment config.separator (TypeName.normalize text))) := by
    rw [nearestRecord?, ← hlevels, List.findSome?_map]
    rfl
  rw [hrecord]
  constructor
  · intro hnames
    cases hnames with
    | nameless empty => rw [if_pos empty]
    | qualified named first =>
      rw [if_neg named, hsome.mpr first]
      rfl
    | nearest named unqualified found =>
      rw [if_neg named, hnone.mpr unqualified]
      exact nearestRecord?_eq_some_iff.mpr found
    | unknown named unqualified nothing =>
      rw [if_neg named, hnone.mpr unqualified]
      exact nearestRecord?_eq_none_iff.mpr nothing
  · rintro rfl
    split
    next empty => exact .nameless empty
    next named =>
      cases hqualified : u.scopes.recordNamed? (TypeName.normalize text) with
      | some d => exact .qualified named (hsome.mp hqualified)
      | none =>
        have unqualified := hnone.mp hqualified
        rw [Option.none_or]
        cases hnearest : nearestRecord? T u.scopes levels
            (Text.lastSegment config.separator (TypeName.normalize text)) with
        | some d => exact .nearest named unqualified (nearestRecord?_eq_some_iff.mp hnearest)
        | none => exact .unknown named unqualified (nearestRecord?_eq_none_iff.mp hnearest)

/-- A declaration that is registered is still there after the pass. -/
theorem exists_of_mem_lookup (h : PassIn languages config t t' T u) {s : ScopeId} {name : String}
    (hd : d ∈ u.scopes.lookup s name) : ∃ n, T.get? d = some n := by
  obtain ⟨n, hn, -⟩ := h.walked.grounded.declared (mem_lookup_iff.mp hd)
  exact ⟨n, (h.walked.grounded.get?_of_mem_lookup h.bound.same hd).trans hn⟩

/-- A reference that is bound to one declaration has found it in a scope. -/
theorem exists_lookup_of_single (h : PassIn languages config t t' T u) (hn : t'.get? x = some n)
    (hplain : ¬ t'.IsMemberHalf x) (hd : T.resolution? x = some (.single d)) :
    ∃ s name, d ∈ u.scopes.lookup s name := by
  cases hk : n.kind.isReference with
  | false =>
    rw [resolution?, (h.bound.same hk).mpr hn, Option.bind_some] at hd
    rw [isReference_of_resolution? hd] at hk
    cases hk
  | true =>
    rcases Node.reference_or_member hk with ⟨q, hp⟩ | ⟨a, hp⟩
    · obtain ⟨scope, -, hlexical⟩ := h.resolution?_name hn hp hplain
      rw [hd, Option.some.injEq, eq_comm] at hlexical
      rcases Binding.lexical_cases (u.context config) T n.name scope (t'.roleOf x) with hnone | ⟨s, -, -, happly⟩
      · rw [hlexical] at hnone
        cases hnone
      · exact ⟨s, n.name, Binding.mem_lookup_of_apply (c := u.context config) (happly.symm.trans hlexical)⟩
    · obtain ⟨_, _, scope, b, -, -, -, hnow, -, hb⟩ := h.exists_access hn hp
      rw [resolution?, hnow] at hd
      cases hd
      rcases Binding.memberOf_cases (u.context config) t' _ n.name (t'.roleOf x) with hnone | ⟨_, s, -, -, happly⟩
      · rw [← hb] at hnone
        cases hnone
      · exact ⟨s, n.name, Binding.mem_lookup_of_apply (c := u.context config) (happly.symm.trans hb.symm)⟩

/-- Looking for the record of a base comes to what the base leads to. -/
theorem baseRecord_iff (h : PassIn languages config t t' T u)
    (hlevels : (u.scopes.ancestors scope).map Prod.fst = levels) (hn : T.get? base = some n)
    (hdeclared : ∀ d, T.resolution? base = some (.single d) → ∃ m, T.get? d = some m) :
    BaseRecord config.separator T u.scopes u.root levels base r ↔
      Binding.recordOfBase? (u.context config) T base scope = r := by
  have htype : ∀ {text r}, TypeNames config.separator T u.scopes u.root levels text r ↔
      Binding.recordOfType? (u.context config) T text scope = r := h.typeNames_iff hlevels
  constructor
  · intro hbase
    cases hbase with
    | record bound isRecord =>
      rw [Binding.recordOfBase?_of_resolution bound]
      exact Binding.recordOfDeclaration?_of_record isRecord
    | typed bound node noRecord type names =>
      rw [Binding.recordOfBase?_of_resolution bound]
      refine (Binding.recordOfDeclaration?_of_other node noRecord).trans ?_
      rw [type]
      exact htype.mp names
    | untyped bound node noRecord noType =>
      rw [Binding.recordOfBase?_of_resolution bound]
      refine (Binding.recordOfDeclaration?_of_other node noRecord).trans ?_
      rw [noType]
      rfl
    | @undecided b bound notSingle =>
      rw [Binding.recordOfBase?_of_resolution bound]
      cases b with
      | single d => exact absurd rfl (notSingle d)
      | unresolved | ambiguous => rfl
    | created node new names =>
      rw [Binding.recordOfBase?_of_new node new]
      exact htype.mp names
    | other node noReference notNew => exact Binding.recordOfBase?_of_other node noReference notNew
  · rintro rfl
    cases hb : T.resolution? base with
    | some b =>
      rw [Binding.recordOfBase?_of_resolution hb]
      cases b with
      | unresolved | ambiguous => exact .undecided hb (fun d hd => by cases hd)
      | single d =>
        obtain ⟨m, hm⟩ := hdeclared d hb
        rw [Resolution.single?, Option.bind_some]
        by_cases hk : m.kind = .recordDecl
        · have hrecord : T.kind? d = some .recordDecl := by rw [kind?, hm, Option.map_some, hk]
          rw [Binding.recordOfDeclaration?_of_record hrecord]
          exact .record hb hrecord
        · rw [Binding.recordOfDeclaration?_of_other hm hk]
          cases htext : m.payload.typeName? with
          | none => exact .untyped hb hm hk htext
          | some text => exact .typed hb hm hk htext (htype.mpr rfl)
    | none =>
      have hk : n.kind.isReference = false := by
        rw [resolution?, hn, Option.bind_some] at hb
        rw [Node.kind, ← Payload.resolution?_isSome, hb]
        rfl
      by_cases hnew : n.kind = .newExpr
      · obtain ⟨text, arguments, hp⟩ := n.exists_new hnew
        rw [Binding.recordOfBase?_of_new hn hp]
        exact .created hn hp (htype.mpr rfl)
      · rw [Binding.recordOfBase?_of_other hn hk hnew]
        exact .other hn hk hnew

/-- A record that is declared has been entered, as implicit members are no records. -/
theorem exists_scope_of_mem_lookup (h : PassIn languages config t t' T u) {s : ScopeId} {name : String}
    (hd : d ∈ u.scopes.lookup s name) (hk : T.kind? d = some .recordDecl) : ∃ own, u.scopes.scopeOf? d = some own := by
  obtain ⟨root, hroot, -⟩ := h.proper.root_parent h.root_eq
  have horigin := origin_of_mem_entries h.proper h.language hroot h.root_not_implicit (List.append_nil _).symm
    h.registration (mem_lookup_iff.mp hd)
  cases horigin with
  | source entered => exact h.exists_scope_of_entered entered hk
  | member _ _ node =>
    rw [kind?, (h.bound.same rfl).mpr node] at hk
    cases hk

theorem exists_scope_of_recordNamed (h : PassIn languages config t t' T u) {q : String}
    (hd : T.RecordNamed config.separator u.root q d) : ∃ own, u.scopes.scopeOf? d = some own := by
  have hmem := (h.mem_enteredRecords_iff h.bound.proper h.toExtends).mpr ⟨hd.reached, hd.record⟩
  exact h.exists_scope_of_entered (mem_filterMap_entered?_iff.mp (List.mem_of_mem_filter hmem)) hd.record

/-- What a type names is a record with a scope. -/
theorem exists_scope_of_typeNames (h : PassIn languages config t t' T u)
    (hd : TypeNames config.separator T u.scopes u.root levels text (some d)) :
    T.kind? d = some .recordDecl ∧ ∃ own, u.scopes.scopeOf? d = some own := by
  cases hd with
  | qualified _ first => exact ⟨first.1.record, h.exists_scope_of_recordNamed first.1⟩
  | nearest _ _ found =>
    obtain ⟨_, s, _, before, after, -, hlookup, hk, -⟩ := found
    exact ⟨hk, h.exists_scope_of_mem_lookup (hlookup ▸ List.mem_append_right before List.mem_cons_self) hk⟩

/-- What a base leads to is a record with a scope. -/
theorem exists_scope_of_baseRecord (h : PassIn languages config t t' T u)
    (hdeclared : ∀ d, T.resolution? base = some (.single d) → ∃ s name, d ∈ u.scopes.lookup s name)
    (hd : BaseRecord config.separator T u.scopes u.root levels base (some d)) :
    T.kind? d = some .recordDecl ∧ ∃ own, u.scopes.scopeOf? d = some own := by
  cases hd with
  | record bound isRecord =>
    obtain ⟨s, name, hmem⟩ := hdeclared d bound
    exact ⟨isRecord, h.exists_scope_of_mem_lookup hmem isRecord⟩
  | typed _ _ _ _ names | created _ _ names => exact h.exists_scope_of_typeNames names

/-- What is looked up in a record is what a member of it denotes. -/
theorem memberDenotes_memberOf (h : PassIn languages config t t' T u) {role : Role} {name : String}
    (hscope : ∀ d, r = some d → T.kind? d = some .recordDecl ∧ ∃ own, u.scopes.scopeOf? d = some own) :
    MemberDenotes config.ambiguity T u.scopes role name r (Binding.memberOf (u.context config) T r name role) := by
  have hgrounded := h.walked.grounded.sameDeclarations h.walked.proper.toWellFormed h.bound.toExtends h.bound.same
  cases r with
  | none => exact .noRecord
  | some d =>
    obtain ⟨hk, own, hown⟩ := hscope d rfl
    have hmember : Binding.memberOf (u.context config) T (some d) name role =
        config.ambiguity.apply (T.bestRanked role (u.scopes.lookup own name)) := by
      rw [← preferred_eq_bestRanked (hgrounded.areDeclarations own name), Binding.memberOf, Option.bind_some]
      simp only [ResolvedUnit.context, hown]
    rw [hmember]
    exact .inside hk hown

/-- An access of the tree before the pass. -/
theorem exists_member (h : PassIn languages config t t' T u) (hn : t.get? e = some n) {a : Access}
    (hp : n.payload = .member a) :
    ∃ base member record bound, a.base = some base ∧ a.member = some member ∧
      T.get? e = some { n with payload := .member { a with resolution := bound } } ∧
      T.name? member = some n.name ∧ T.resolution? member = some bound ∧
      (∀ r, BaseRecord config.separator T u.scopes u.root (T.enclosingScopes u.scopes e) base r ↔ r = record) ∧
      MemberDenotes config.ambiguity T u.scopes (T.roleOf e) n.name record bound := by
  have hwf := h.walked.proper.toWellFormed
  have hn' : t'.get? e = some n := h.walked.keeps hn (by simp [Node.kind, hp, Payload.kind])
  obtain ⟨base, member, scope, bound, hbase, hmember, hinner, hnow, hhalf, hbound⟩ := h.exists_access hn' hp
  have hlevels : (u.scopes.ancestors scope).map Prod.fst = T.enclosingScopes u.scopes e := by
    rw [h.bound.toExtends.enclosingScopes_eq hwf hn']
    exact h.nested.map_fst_ancestors hwf hinner
  obtain ⟨b, hb, -⟩ := hwf.parent_of_child hn' (Binding.base_mem_children hp hbase)
  obtain ⟨b', hb', -⟩ := h.bound.toExtends.node hb
  have hdeclared : ∀ d, T.resolution? base = some (.single d) → ∃ s name, d ∈ u.scopes.lookup s name :=
    fun d => h.exists_lookup_of_single hb (Binding.base_not_half h.walked.proper hn' hp hbase hmember)
  have hbaseRecord := fun {r} => h.baseRecord_iff (r := r) hlevels hb' fun d hd => by
    obtain ⟨s, name, hmem⟩ := hdeclared d hd
    exact h.exists_of_mem_lookup hmem
  obtain ⟨k, -, hk, -, hname⟩ := h.bound.proper.half hnow rfl hmember
  refine ⟨base, member, Binding.recordOfBase? (u.context config) T base scope, bound, hbase, hmember, hnow, ?_, hhalf,
    fun r => hbaseRecord.trans eq_comm, ?_⟩
  · rw [name?, hk, Option.map_some, hname]
  · rw [hbound, ← Binding.memberOf_congr (c := u.context config) h.walked.grounded h.bound.same,
      ← Binding.roleOf_of_extends h.bound.toExtends hwf hn']
    exact h.memberDenotes_memberOf fun d hd => h.exists_scope_of_baseRecord hdeclared (hbaseRecord.mpr hd)

end Tree.PassIn

/-- Whatever passes and registrations have been over the tree of a document, a pass that succeeds binds each access that
was there before, and its member half, to the members of the one record that its base leads to in the end. -/
theorem access_bound_in_record {document : SyntaxNode} {t T : Tree} {config : Config} {u : ResolvedUnit} {e : NodeId}
    {n : Node} {a : Access} (hdocument : Tree.ofSyntax document = .ok t) (hevolves : t.Evolves Set.univ T)
    (hresolve : (T.resolve config).result = .ok u) (hn : T.get? e = some n) (hp : n.payload = .member a) :
    ∃ base member record bound, a.base = some base ∧ a.member = some member ∧
      (T.resolve config).tree.get? e = some { n with payload := .member { a with resolution := bound } } ∧
      (T.resolve config).tree.name? member = some n.name ∧
      (T.resolve config).tree.resolution? member = some bound ∧
      (∀ r, BaseRecord config.separator (T.resolve config).tree u.scopes u.root
        ((T.resolve config).tree.enclosingScopes u.scopes e) base r ↔ r = record) ∧
      MemberDenotes config.ambiguity (T.resolve config).tree u.scopes ((T.resolve config).tree.roleOf e) n.name
        record bound := by
  obtain ⟨hT, -, -⟩ := hevolves.keeps (properIn_of_ofSyntax hdocument Set.univ)
  obtain ⟨t', h⟩ := exists_passIn hT (Set.mem_univ config.separator) hresolve
  exact h.exists_member hn hp

/-- A pass over a tree that a pass in another language has been over. -/
def explicitCounterAgain : Outcome ResolvedUnit := (explicitCounterTree.resolve { language := .cpp }).tree.resolve {}

theorem access_bound_in_record_count :
    Tree.ofSyntax explicitCounter = .ok explicitCounterTree ∧
      explicitCounterTree.Evolves Set.univ (explicitCounterTree.resolve { language := .cpp }).tree ∧
      explicitCounterAgain.result = .ok explicitCounterUnit ∧
      ∃ record bound, explicitCounterAgain.tree.resolution? ⟨2⟩ = some bound ∧
        (∀ r, BaseRecord "." explicitCounterAgain.tree explicitCounterUnit.scopes ⟨8⟩
          (explicitCounterAgain.tree.enclosingScopes explicitCounterUnit.scopes ⟨3⟩) ⟨1⟩ r ↔ r = record) ∧
        MemberDenotes .keepAll explicitCounterAgain.tree explicitCounterUnit.scopes
          (explicitCounterAgain.tree.roleOf ⟨3⟩) "count" record bound := by
  have hdocument : Tree.ofSyntax explicitCounter = .ok explicitCounterTree := rfl
  have hevolves : explicitCounterTree.Evolves Set.univ (explicitCounterTree.resolve { language := .cpp }).tree :=
    .resolve .start (Set.mem_univ _)
  have hresolve : explicitCounterAgain.result = .ok explicitCounterUnit := by decide +kernel
  have hn : (explicitCounterTree.resolve { language := .cpp }).tree.get? ⟨3⟩ =
      some ⟨⟨3⟩, "count", none, some ⟨4⟩, .member ⟨some ⟨1⟩, some ⟨2⟩, false, .single ⟨0⟩⟩⟩ := by decide +kernel
  obtain ⟨base, member, record, bound, hbase, hmember, -, -, hhalf, hrecord, hdenotes⟩ :=
    access_bound_in_record hdocument hevolves hresolve hn rfl
  cases hbase
  cases hmember
  exact ⟨hdocument, hevolves, hresolve, record, bound, hhalf, hrecord, hdenotes⟩

end NameResolution
