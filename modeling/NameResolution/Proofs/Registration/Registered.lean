import NameResolution.Proofs.Registration.Grounded

/-!
# What a registration says about its tree

`Registered` ties a scope tree to the tree it was made from: scopes nest as their owners do, every entry is
a declaration of the entry's name that stands in the entry's scope, no declaration is entered twice, what
must be alone under its name is, every record that has a scope is listed under its qualified name, and its
implicit members are entries of the scope. What registration adds keeps this.
-/
namespace NameResolution.Registration
open NameResolution.Tree ScopeTree

/-- Scopes nest as the nodes do that open them. -/
structure Nested (t : Tree) (S : ScopeTree) : Prop where
  opened : ∀ {s sc}, S.get? s = some sc → S.scopeOf? sc.owner = some s
  owner : ∀ {s sc}, S.get? s = some sc → ∃ n, t.get? sc.owner = some n ∧ n.payload.opens? = some sc.kind
  parent : ∀ {s sc}, S.get? s = some sc → sc.parent = t.enclosingScope? S sc.owner
  earlier : ∀ {s sc q}, S.get? s = some sc → sc.parent = some q → q.index < s.index

namespace Nested
variable {t t' : Tree} {S S' : ScopeTree} {id : NodeId} {n : Node}

theorem empty (t : Tree) : Nested t {} := by
  have hno : ∀ {s sc}, ({} : ScopeTree).get? s ≠ some sc :=
    fun hs => absurd (lt_size_of_get? hs) (Nat.not_lt_zero _)
  exact ⟨fun hs => absurd hs hno, fun hs => absurd hs hno, fun hs => absurd hs hno, fun hs => absurd hs hno⟩

/-- Entries and the names of records have no part in the nesting. -/
theorem congr (h : Nested t S) (hS : S'.scopes = S.scopes) : Nested t S' := by
  have hget := get?_congr hS
  constructor
  case opened =>
    intro s sc hs
    rw [scopeOf?_congr hS]
    exact h.opened (hget s ▸ hs)
  case owner => exact fun hs => h.owner (hget _ ▸ hs)
  case parent =>
    intro s sc hs
    rw [enclosingScope?_congr hS]
    exact h.parent (hget s ▸ hs)
  case earlier => exact fun hs => h.earlier (hget _ ▸ hs)

/-- Scopes stay nested in a tree that is extended. -/
theorem mono (h : Nested t S) (ht : t.WellFormed) (hext : t.Extends t') : Nested t' S := by
  constructor
  case opened => exact h.opened
  case owner =>
    intro s sc hs
    obtain ⟨k, hk, hopens⟩ := h.owner hs
    obtain ⟨k', hk', hb⟩ := hext.node hk
    exact ⟨k', hk', hb.payload.opens?_eq.trans hopens⟩
  case parent =>
    intro s sc hs
    obtain ⟨k, hk, -⟩ := h.owner hs
    rw [hext.enclosingScope?_eq ht hk]
    exact h.parent hs
  case earlier => exact h.earlier

/-- A scope may be opened inside the innermost one around its owner, as long as no owner stands below it. -/
theorem push (h : Nested t S) (ht : t.WellFormed) {kind : ScopeKind} (hn : t.get? id = some n)
    (hopens : n.payload.opens? = some kind) (hnew : S.scopeOf? id = none)
    (howner : ∀ {s sc}, S.get? s = some sc → id ∉ t.ancestors sc.owner) :
    Nested t (S.push kind id (t.enclosingScope? S id)).2 := by
  constructor
  case opened =>
    intro s sc hs
    rw [scopeOf?_push]
    rcases cases_of_get?_push hs with ⟨rfl, rfl⟩ | hs
    · rw [if_pos rfl]
    · have hso := h.opened hs
      rw [if_neg, hso]
      rintro rfl
      rw [hnew] at hso
      cases hso
  case owner =>
    intro s sc hs
    rcases cases_of_get?_push hs with ⟨rfl, rfl⟩ | hs
    · exact ⟨n, hn, hopens⟩
    · exact h.owner hs
  case parent =>
    intro s sc hs
    rcases cases_of_get?_push hs with ⟨rfl, rfl⟩ | hs
    · exact (enclosingScope?_push (ht.not_mem_ancestors id) ..).symm
    · rw [enclosingScope?_push (howner hs)]
      exact h.parent hs
  case earlier =>
    intro s sc q hs hq
    rcases cases_of_get?_push hs with ⟨rfl, rfl⟩ | hs
    · exact lt_size_of_enclosingScope? hq
    · exact h.earlier hs hq

/-- Scopes stay nested when a node opens its own. -/
theorem opens {config : Config} {p p' : Progress} {inner : Option ScopeId} (h : Nested p.tree p.scopes)
    (ht : p.tree.WellFormed) (hn : p.tree.get? id = some n) (hnew : p.scopes.scopeOf? id = none)
    (howner : ∀ {s sc}, p.scopes.get? s = some sc → id ∉ p.tree.ancestors sc.owner)
    (ho : Opens config id n (p.tree.enclosingScope? p.scopes id) p inner p') : Nested p'.tree p'.scopes := by
  cases ho with
  | transparent => exact h
  | plain hopens => exact h.push ht hn hopens hnew howner
  | record hp hsup =>
    have hopens : n.payload.opens? = some .record := by
      rw [hp]
      rfl
    exact ((h.push ht hn hopens hnew howner).mono ht (hsup.toExtends hn hp)).congr rfl

end Nested

/-- The field was added by registration. -/
def IsImplicitField (t : Tree) (x : NodeId) : Prop :=
  ∃ m f, t.get? x = some m ∧ m.payload = .fieldDecl f ∧ f.isImplicit = true

/-- The node claims the name it is declared under for itself. -/
def ClaimsName (t : Tree) (d : NodeId) : Prop := (t.kind? d).any NodeKind.isUniquePerScope = true

/-- The scope tree tells the truth about the tree. -/
structure Registered (separator : String) (t : Tree) (S : ScopeTree) : Prop where
  opened : ∀ {s sc}, S.get? s = some sc → S.scopeOf? sc.owner = some s
  owner : ∀ {s sc}, S.get? s = some sc →
    ∃ n, t.get? sc.owner = some n ∧ n.payload.opens? = some sc.kind
  parent : ∀ {s sc}, S.get? s = some sc → sc.parent = t.enclosingScope? S sc.owner
  earlier : ∀ {s sc q}, S.get? s = some sc → sc.parent = some q → q.index < s.index
  entry : ∀ {e}, e ∈ S.entries → ∃ n, t.get? e.declaration = some n ∧ n.kind.isDeclaration = true ∧
    declaredName separator n = e.name ∧ t.enclosingScope? S e.declaration = some e.scope
  nodup : (S.entries.toList.map Entry.declaration).Nodup
  /-- Only implicit members may claim one name together. -/
  sole : ∀ {e e'}, e ∈ S.entries → e' ∈ S.entries → e'.scope = e.scope → e'.name = e.name →
    ClaimsName t e.declaration → ¬ IsImplicitField t e.declaration → ClaimsName t e'.declaration → e' = e
  named : ∀ {q d}, (q, d) ∈ S.records → t.kind? d = some .recordDecl ∧ q = t.qualifiedName separator d
  listed : ∀ {s sc}, S.get? s = some sc → sc.kind = .record →
    (t.qualifiedName separator sc.owner, sc.owner) ∈ S.records
  supplied : ∀ {d n r s}, t.get? d = some n → n.payload = .recordDecl r → S.scopeOf? d = some s →
    t.Supplied separator d r
  implicit : ∀ {d n r s f}, t.get? d = some n → n.payload = .recordDecl r → S.scopeOf? d = some s →
    f ∈ r.implicitFields → ∃ m, t.get? f = some m ∧ (⟨s, m.name, f⟩ : Entry) ∈ S.entries

namespace Registered
variable {separator : String} {t t' : Tree} {S : ScopeTree} {id : NodeId} {n : Node}

theorem opens?_eq_record_iff {p : Payload} : p.opens? = some .record ↔ p.kind = .recordDecl := by
  cases p <;> simp [Payload.opens?, Payload.kind]

theorem empty (separator : String) (t : Tree) : Registered separator t {} := by
  have hno : ∀ {s sc}, ({} : ScopeTree).get? s ≠ some sc := by
    intro s sc hs
    exact absurd (lt_size_of_get? hs) (Nat.not_lt_zero _)
  constructor
  case nodup => exact List.nodup_nil
  case supplied | implicit =>
    intros
    simp_all
  all_goals
    intros
    simp_all

theorem nested (h : Registered separator t S) : Nested t S := ⟨h.opened, h.owner, h.parent, h.earlier⟩

theorem grounded (h : Registered separator t S) : Grounded t S := by
  refine ⟨h.owner, fun he => ?_, fun hs hn hr => ⟨separator, h.supplied hn hr (h.opened hs)⟩⟩
  obtain ⟨n, hn, hdecl, -⟩ := h.entry he
  exact ⟨n, hn, hdecl⟩

/-- The nodes that a scope tree speaks of may change as long as they stay what they were declared as. -/
theorem mono (h : Registered separator t S) (ht : t.WellFormed) (hext : t.Extends t')
    (hentry : ∀ {e n}, e ∈ S.entries → t.get? e.declaration = some n →
      ∃ n', t'.get? e.declaration = some n' ∧ n'.kind = n.kind ∧ n'.name = n.name)
    (hrecord : ∀ {d m r}, (S.scopeOf? d).isSome → t'.get? d = some m → m.payload = .recordDecl r →
      t.get? d = some m)
    (hfields : ∀ {f m d}, t.get? f = some m → m.payload = .fieldDecl d → t'.get? f = some m) :
    Registered separator t' S := by
  obtain ⟨opened, owner, parent, earlier⟩ := h.nested.mono ht hext
  refine ⟨opened, owner, parent, earlier, ?entry, h.nodup, ?sole, ?named, ?listed, ?supplied, ?implicit⟩
  case entry =>
    intro e he
    obtain ⟨k, hk, hdecl, hname, hin⟩ := h.entry he
    obtain ⟨k', hk', hkind, hname'⟩ := hentry he hk
    refine ⟨k', hk', hkind ▸ hdecl, ?_, (hext.enclosingScope?_eq ht hk S).trans hin⟩
    rw [← hname, declaredName, declaredName, Node.isRecord, Node.isRecord, hkind, hname']
  case sole =>
    have hclaims : ∀ {e}, e ∈ S.entries → (ClaimsName t' e.declaration ↔ ClaimsName t e.declaration) := by
      intro e he
      obtain ⟨k, hk, -⟩ := h.entry he
      obtain ⟨k', hk', hkind, -⟩ := hentry he hk
      rw [ClaimsName, ClaimsName, kind?, kind?, hk, hk', Option.map_some, Option.map_some, hkind]
    intro e e' he he' hs hname hclaim himplicit hclaim'
    refine h.sole he he' hs hname ((hclaims he).mp hclaim) ?_ ((hclaims he').mp hclaim')
    rintro ⟨m, d, hm, hd, hi⟩
    exact himplicit ⟨m, d, hfields hm hd, hd, hi⟩
  case named =>
    intro q d hd
    obtain ⟨hk, hq⟩ := h.named hd
    obtain ⟨k, hk', -⟩ := Option.map_eq_some_iff.mp hk
    exact ⟨(hext.kind?_recordDecl_iff hk').mpr hk, hq.trans (hext.qualifiedName_eq ht separator hk').symm⟩
  case listed =>
    intro s sc hs hk
    obtain ⟨k, hk', -⟩ := h.owner hs
    rw [hext.qualifiedName_eq ht separator hk']
    exact h.listed hs hk
  case supplied =>
    intro d k r s hk hr hs
    have hk' := hrecord (by simp [hs]) hk hr
    exact (h.supplied hk' hr hs).mono ht hk' hext hfields
  case implicit =>
    intro d k r s f hk hr hs hf
    have hk' := hrecord (by simp [hs]) hk hr
    obtain ⟨m, hm, he⟩ := h.implicit hk' hr hs hf
    obtain ⟨name, typeName, hm'⟩ := (h.supplied hk' hr hs).implicit hf
    rw [hm] at hm'
    cases hm'
    exact ⟨_, hfields hm rfl, he⟩

theorem nameRecord (h : Registered separator t S) (hk : t.kind? id = some .recordDecl) :
    Registered separator t (S.nameRecord (t.qualifiedName separator id) id) := by
  refine { h with named := ?_, listed := fun hs hk => Array.mem_push.mpr (.inl (h.listed hs hk)) }
  intro q d hd
  rcases Array.mem_push.mp hd with hd | hd
  · exact h.named hd
  · cases hd
    exact ⟨hk, rfl⟩

/-- Entering a declaration under its name in the scope around it. -/
theorem declare (h : Registered separator t S) {s : ScopeId} (hn : t.get? id = some n)
    (hdecl : n.kind.isDeclaration = true) (hin : t.enclosingScope? S id = some s)
    (hnew : ∀ e ∈ S.entries, e.declaration ≠ id)
    (hfree : ClaimsName t id → ∀ d ∈ S.lookup s (declaredName separator n), ¬ ClaimsName t d) :
    Registered separator t (S.declare s (declaredName separator n) id) := by
  have hmem : ∀ {e}, e ∈ S.entries → e ∈ (S.declareAll [⟨s, declaredName separator n, id⟩]).entries :=
    fun he => mem_entries_declareAll.mpr (.inl he)
  rw [declare_eq_declareAll _ (lt_size_of_enclosingScope? hin)]
  refine { h with entry := ?_, nodup := ?_, sole := ?_, implicit := ?_ }
  · intro e he
    rcases mem_entries_declareAll.mp he with he | he
    · exact h.entry he
    · rw [List.mem_singleton.mp he]
      exact ⟨n, hn, hdecl, rfl, hin⟩
  · have hentries : (S.declareAll [⟨s, declaredName separator n, id⟩]).entries.toList.map
        Entry.declaration = S.entries.toList.map Entry.declaration ++ [id] := by
      simp [declareAll]
    rw [hentries]
    refine List.nodup_append.mpr ⟨h.nodup, List.nodup_singleton id, ?_⟩
    intro d hd x hx he
    obtain ⟨e, he', rfl⟩ := List.mem_map.mp hd
    exact hnew e (Array.mem_toList_iff.mp he') (he.trans (List.mem_singleton.mp hx))
  · have hheld : ∀ {e : Entry}, e ∈ S.entries → e.scope = s → e.name = declaredName separator n →
        e.declaration ∈ S.lookup s (declaredName separator n) := by
      intro e he hs hname
      exact mem_lookup_iff.mpr (hs ▸ hname ▸ he)
    intro e e' he he' hs hname hclaim himplicit hclaim'
    rcases mem_entries_declareAll.mp he with he | he
    · rcases mem_entries_declareAll.mp he' with he' | he'
      · exact h.sole he he' hs hname hclaim himplicit hclaim'
      · rw [List.mem_singleton.mp he'] at hs hname hclaim'
        exact absurd hclaim (hfree hclaim' _ (hheld he hs.symm hname.symm))
    · rw [List.mem_singleton.mp he] at hs hname hclaim
      rcases mem_entries_declareAll.mp he' with he' | he'
      · exact absurd hclaim' (hfree hclaim _ (hheld he' hs hname))
      · rw [List.mem_singleton.mp he, List.mem_singleton.mp he']
  · intro d k r s' f hk hr hs hf
    obtain ⟨m, hm, he⟩ := h.implicit hk hr hs hf
    exact ⟨m, hm, hmem he⟩

/-- Opening the scope of a node, with the entries that are made in it at once: none, or the implicit members
of a record. -/
theorem push (h : Registered separator t S) (ht : t.WellFormed) {kind : ScopeKind}
    (hn : t.get? id = some n) (hopens : n.payload.opens? = some kind) (hnew : S.scopeOf? id = none)
    (howner : ∀ {s sc}, S.get? s = some sc → id ∉ t.ancestors sc.owner)
    (hentry : ∀ e ∈ S.entries, id ∉ t.ancestors e.declaration) {es : List Entry}
    (hes : ∀ e ∈ es, e.scope = ⟨S.size⟩ ∧
      ∃ typeName, t.get? e.declaration = some (implicitNode e.declaration id e.name typeName))
    (hnodup : (S.entries.toList.map Entry.declaration ++ es.map Entry.declaration).Nodup)
    (hrecord : ∀ {r}, n.payload = .recordDecl r → t.Supplied separator id r ∧
      (t.qualifiedName separator id, id) ∈ S.records ∧
      ∀ f ∈ r.implicitFields, ∃ m, t.get? f = some m ∧ (⟨⟨S.size⟩, m.name, f⟩ : Entry) ∈ es) :
    Registered separator t
      ((S.push kind id (t.enclosingScope? S id)).2.declareAll es) := by
  have hscopeOf : ∀ x, ((S.push kind id (t.enclosingScope? S id)).2.declareAll es).scopeOf? x =
      if id = x then some ⟨S.size⟩ else S.scopeOf? x := fun x => scopeOf?_push ..
  have hmem : ∀ {e}, e ∈ ((S.push kind id (t.enclosingScope? S id)).2.declareAll es).entries ↔
      e ∈ S.entries ∨ e ∈ es := mem_entries_declareAll
  obtain ⟨opened, owner, parent, earlier⟩ := h.nested.push ht hn hopens hnew howner
  refine ⟨opened, owner, parent, earlier, ?entry, ?nodup, ?sole, h.named, ?listed, ?supplied, ?implicit⟩
  case entry =>
    intro e he
    rcases hmem.mp he with he | he
    · obtain ⟨m, hm, hdecl, hname, hin⟩ := h.entry he
      exact ⟨m, hm, hdecl, hname, (enclosingScope?_push (hentry e he) ..).trans hin⟩
    · obtain ⟨hscope, typeName, hm⟩ := hes e he
      refine ⟨_, hm, rfl, rfl, ?_⟩
      rw [enclosingScope?, enclosingScopes, ht.ancestors_of_parent hm rfl,
        List.filterMap_cons_some ((hscopeOf id).trans (if_pos rfl)), hscope]
      rfl
  case nodup =>
    have hentries : ((S.push kind id (t.enclosingScope? S id)).2.declareAll es).entries.toList =
        S.entries.toList ++ es := by
      simp [declareAll, ScopeTree.push]
    rw [hentries, List.map_append]
    exact hnodup
  case sole =>
    intro e e' he he' hs hname hclaim himplicit hclaim'
    rcases hmem.mp he with he | he
    · rcases hmem.mp he' with he' | he'
      · exact h.sole he he' hs hname hclaim himplicit hclaim'
      · -- An old entry is not in the new scope.
        obtain ⟨_, -, -, -, hin⟩ := h.entry he
        have hlt := lt_size_of_enclosingScope? hin
        rw [← hs, (hes e' he').1] at hlt
        exact absurd hlt (Nat.lt_irrefl _)
    · obtain ⟨-, typeName, hm⟩ := hes e he
      exact absurd ⟨_, _, hm, rfl, rfl⟩ himplicit
  case listed =>
    intro s sc hs hk
    rcases cases_of_get?_push hs with ⟨rfl, rfl⟩ | hs
    · obtain ⟨r, hr⟩ : ∃ r, n.payload = .recordDecl r := by
        have hrecord : kind = .record := hk
        exact Node.exists_record (opens?_eq_record_iff.mp (hrecord ▸ hopens))
      exact (hrecord hr).2.1
    · exact h.listed hs hk
  case supplied =>
    intro d k r s hk hr hs
    rw [hscopeOf] at hs
    by_cases hd : id = d
    · subst hd
      rw [hn] at hk
      cases hk
      exact (hrecord hr).1
    · rw [if_neg hd] at hs
      exact h.supplied hk hr hs
  case implicit =>
    intro d k r s f hk hr hs hf
    rw [hscopeOf] at hs
    by_cases hd : id = d
    · subst hd
      rw [hn] at hk
      cases hk
      rw [if_pos rfl] at hs
      cases hs
      obtain ⟨m, hm, he⟩ := (hrecord hr).2.2 f hf
      exact ⟨m, hm, hmem.mpr (.inr he)⟩
    · rw [if_neg hd] at hs
      obtain ⟨m, hm, he⟩ := h.implicit hk hr hs hf
      exact ⟨m, hm, hmem.mpr (.inl he)⟩

theorem declares {config : Config} {p p' : Progress}
    (h : Registered config.separator p.tree p.scopes) (hn : p.tree.get? id = some n)
    (hnew : ∀ e ∈ p.scopes.entries, e.declaration ≠ id)
    (hd : Declares config id n (p.tree.enclosingScope? p.scopes id) p p') :
    Registered config.separator p'.tree p'.scopes := by
  cases hd with
  | skipped | dropped => exact h
  | entered hin hdecl _ hfree =>
    refine h.declare hn hdecl hin hnew fun hclaim d hd => ?_
    rw [ClaimsName, kind?, hn, Option.map_some, Option.any_some] at hclaim
    exact List.find?_eq_none.mp (hfree hclaim) d hd

theorem supplies {r r' : Record} (h : Registered separator t S) (ht : t.WellFormed)
    (hn : t.get? id = some n) (hp : n.payload = .recordDecl r) (hnew : S.scopeOf? id = none)
    (hsup : Supplies separator id n r t r' t') : Registered separator t' S := by
  refine h.mono ht (hsup.toExtends hn hp) ?_ ?_ ?_
  · intro e m _ hm
    by_cases he : e.declaration = id
    · rw [he, hn] at hm
      cases hm
      refine ⟨{ n with payload := .recordDecl r' }, by rw [he, hsup.self hn hp], ?_, rfl⟩
      rw [Node.kind, Node.kind, hp]
      rfl
    · exact ⟨m, hsup.kept hn hp he hm, rfl, rfl⟩
  · intro d m q hd hm hq
    have hne : d ≠ id := by
      rintro rfl
      simp [hnew] at hd
    rcases hsup.only hn hp hne hm with hm' | ⟨-, hf⟩
    · exact hm'
    · obtain ⟨_, hsupplied⟩ := hsup.exists_supplied
      obtain ⟨name, typeName, hm'⟩ := hsupplied.implicit hf
      rw [hm] at hm'
      cases hm'
      cases hq
  · intro f m d hm hd
    exact hsup.keepsAllButRecords hn hp hm (by simp [Node.kind, hd, Payload.kind])

/-- The entries of the implicit members name the fields as they are named. -/
theorem implicitEntries_spec {r' : Record} (ht : t.WellFormed) (hext : t.Extends t')
    (hn : t.get? id = some n) (hsup : t'.Supplied separator id r') (s : ScopeId) :
    (∀ e ∈ implicitEntries separator t s r', e.scope = s ∧
      ∃ typeName, t'.get? e.declaration = some (implicitNode e.declaration id e.name typeName)) ∧
    ∀ f ∈ r'.implicitFields, ∃ m, t'.get? f = some m ∧
      (⟨s, m.name, f⟩ : Entry) ∈ implicitEntries separator t s r' := by
  obtain ⟨f, hf, hthis⟩ := hsup.this
  have hrecords : r'.implicitOuter.map OuterInstance.record = t.enclosingRecords id :=
    hsup.records.trans (hext.enclosingRecords_eq ht hn)
  have houter : ∀ o ∈ r'.implicitOuter, t'.get? o.field = some (implicitNode o.field id
      (Text.joinPath separator (t.qualifiedName separator o.record) "this")
      (t.qualifiedName separator o.record)) := by
    intro o ho
    have hmem : o.record ∈ t.enclosingRecords id := hrecords ▸ List.mem_map_of_mem ho
    obtain ⟨m, hm⟩ := ht.exists_of_mem_ancestors (List.mem_of_mem_filter hmem)
    rw [hsup.outer o ho, hext.qualifiedName_eq ht _ hm]
  constructor
  · intro e he
    rcases List.mem_append.mp he with he | he
    · rw [hf, Option.toList_some, List.map_singleton, List.mem_singleton] at he
      subst he
      exact ⟨rfl, _, hthis⟩
    · obtain ⟨o, ho, rfl⟩ := List.mem_map.mp he
      exact ⟨rfl, _, houter o ho⟩
  · intro g hg
    rcases List.mem_append.mp hg with hg | hg
    · rw [hf, Option.toList_some, List.mem_singleton] at hg
      subst hg
      exact ⟨_, hthis, List.mem_append_left _ (by simp [hf, implicitNode])⟩
    · obtain ⟨o, ho, rfl⟩ := List.mem_map.mp hg
      exact ⟨_, houter o ho, List.mem_append_right _ (List.mem_map_of_mem ho)⟩

theorem opens {config : Config} {p p' : Progress} {inner : Option ScopeId}
    (h : Registered config.separator p.tree p.scopes) (ht : p.tree.Proper config.separator)
    (hn : p.tree.get? id = some n) (hnew : p.scopes.scopeOf? id = none)
    (howner : ∀ {s sc}, p.scopes.get? s = some sc → id ∉ p.tree.ancestors sc.owner)
    (hentry : ∀ e ∈ p.scopes.entries, id ∉ p.tree.ancestors e.declaration)
    (hfields : ∀ e ∈ p.scopes.entries, ∀ name typeName,
      p.tree.get? e.declaration ≠ some (implicitNode e.declaration id name typeName))
    (ho : Opens config id n (p.tree.enclosingScope? p.scopes id) p inner p') :
    Registered config.separator p'.tree p'.scopes := by
  have hwf := ht.toWellFormed
  cases ho with
  | transparent => exact h
  | plain hopens hk =>
    have hnone : ∀ e ∈ ([] : List Entry), e.scope = ⟨p.scopes.size⟩ ∧ ∃ typeName,
        p.tree.get? e.declaration = some (implicitNode e.declaration id e.name typeName) := by simp
    have hpush := h.push hwf hn hopens hnew howner hentry hnone (by simpa using h.nodup)
      fun hr => absurd (congrArg Payload.kind hr) hk
    rwa [declareAll_nil] at hpush
  | @record r r' t' hp hsup =>
    have hext := hsup.toExtends hn hp
    have hself := hsup.self hn hp
    have hsupplied := hsup.supplied ht hn hp
    have hkind : t'.kind? id = some .recordDecl := by
      rw [kind?, hself]
      rfl
    have hscope := hext.enclosingScope?_eq hwf hn p.scopes
    have hqualified := hext.qualifiedName_eq hwf config.separator hn
    have hreg := hqualified ▸ (h.supplies hwf hn hp hnew hsup).nameRecord hkind
    obtain ⟨hentries, himplicit⟩ := implicitEntries_spec hwf hext hn hsupplied ⟨p.scopes.size⟩
    have hpush := hreg.push (hsup.properIn ht rfl hn hp).toWellFormed hself rfl hnew ?_ ?_ hentries ?_ ?_
    · exact hscope ▸ hpush
    · intro s sc hs
      obtain ⟨m, hm, -⟩ := h.owner hs
      rw [hext.ancestors_eq hwf hm]
      exact howner hs
    · intro e he
      obtain ⟨m, hm, -⟩ := h.entry he
      rw [hext.ancestors_eq hwf hm]
      exact hentry e he
    · rw [map_declaration_implicitEntries]
      refine List.nodup_append.mpr ⟨h.nodup, hsup.nodup_fields hwf hn hp, ?_⟩
      intro d hd f hf hdf
      obtain ⟨e, he, rfl⟩ := List.mem_map.mp hd
      have he := Array.mem_toList_iff.mp he
      obtain ⟨m, hm, -⟩ := h.entry he
      rw [← hdf] at hf
      obtain ⟨name, typeName, hf'⟩ := hsupplied.implicit hf
      rcases hsup.cases hn hp with ⟨-, rfl⟩ | ⟨-, -, hg⟩
      · exact hfields e he name typeName hf'
      · simp [hg.fresh _ hf] at hm
    · intro q hq
      cases hq
      exact ⟨hsupplied, Array.mem_push.mpr (.inr (by rw [hqualified])), himplicit⟩

end Registered

end NameResolution.Registration
