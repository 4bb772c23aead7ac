import NameResolution.Proofs.Binding.Agreement

/-!
# Where candidates come from

Everything a name can be bound to is declared under the name in one scope: a level around a plain name, or
the scope of the record that the base of an access denotes. A declaration is declared once, so the scope is
known from any of the candidates.
-/
namespace NameResolution

theorem AmbiguityPolicy.candidates_apply_sublist (p : AmbiguityPolicy) (ds : List NodeId) :
    (p.apply ds).candidates.Sublist ds := by
  match ds, p with
  | [], _ => exact .slnil
  | [_], _ => exact .refl _
  | _ :: _ :: _, keepAll => exact .refl _
  | _ :: _ :: _, first => exact .cons_cons _ (List.nil_sublist _)
  | _ :: _ :: _, reject => exact List.nil_sublist _

/-- Only keeping all candidates leaves a name ambiguous, and only if there are several. -/
theorem AmbiguityPolicy.apply_eq_ambiguous {p : AmbiguityPolicy} {ds es : List NodeId}
    (h : p.apply ds = .ambiguous es) : p = .keepAll ∧ 2 ≤ es.length := by
  match ds, p with
  | [], _ => cases h
  | [_], _ => cases h
  | _ :: _ :: _, keepAll =>
    cases h
    exact ⟨rfl, by simp⟩
  | _ :: _ :: _, first => cases h
  | _ :: _ :: _, reject => cases h

/-- What a policy resolves has a candidate. -/
theorem AmbiguityPolicy.exists_mem_candidates {p : AmbiguityPolicy} {ds : List NodeId}
    (h : (p.apply ds).isResolved = true) : ∃ d, d ∈ (p.apply ds).candidates := by
  match ds, p with
  | [], _ => cases h
  | [d], _ | d :: _ :: _, keepAll | d :: _ :: _, first => exact ⟨d, List.mem_cons_self ..⟩
  | _ :: _ :: _, reject => cases h

namespace Registration.Registered
open NameResolution.Tree ScopeTree
variable {separator : String} {t : Tree} {S : ScopeTree}

/-- Nothing is entered twice. -/
theorem entry_unique (h : Registered separator t S) {e e' : Entry} (he : e ∈ S.entries)
    (he' : e' ∈ S.entries) (hd : e.declaration = e'.declaration) : e = e' :=
  List.inj_on_of_nodup_map h.nodup (Array.mem_toList_iff.mpr he) (Array.mem_toList_iff.mpr he') hd

theorem lookup_unique (h : Registered separator t S) {s s' : ScopeId} {name name' : String} {d : NodeId}
    (hd : d ∈ S.lookup s name) (hd' : d ∈ S.lookup s' name') : s = s' ∧ name = name' := by
  have he := h.entry_unique (mem_lookup_iff.mp hd) (mem_lookup_iff.mp hd') rfl
  cases he
  exact ⟨rfl, rfl⟩

theorem nodup_lookup (h : Registered separator t S) (s : ScopeId) (name : String) :
    (S.lookup s name).Nodup :=
  h.nodup.sublist (List.filter_sublist.map _)

end Registration.Registered

theorem Tree.preferred_sublist {t : Tree} {ds : List NodeId} (hds : t.AreDeclarations ds) (role : Role) :
    (t.preferred role ds).Sublist ds := by
  by_cases h : t.suited role ds = []
  · rw [preferred_of_unsuited hds h]
  · rw [preferred_of_suited hds h]
    cases role with
    | callee => exact List.filter_sublist
    | value =>
      simp only [suited]
      split <;> exact List.filter_sublist

namespace Binding
open NameResolution.Tree ScopeTree Registration
variable {c : Context} {t : Tree} {scope : ScopeId} {name : String} {role : Role}

/-- The candidates of a level are declared in its scope. -/
theorem mem_lookup_of_candidates {level : Level} (h : Level.find? t c.scopes scope name role = some level)
    {d : NodeId} (hd : d ∈ level.candidates) :
    ∃ s, (s, level.scope) ∈ c.scopes.ancestors scope ∧ d ∈ c.scopes.lookup s name := by
  obtain ⟨s, hs, hcandidates⟩ := mem_candidates h
  rw [hcandidates] at hd
  exact ⟨s, hs, preferred_subset t role _ hd⟩

theorem mem_lookup_of_apply {d : NodeId} {s : ScopeId}
    (h : c.policy.apply (t.preferred role (c.scopes.lookup s name)) = .single d) :
    d ∈ c.scopes.lookup s name :=
  preferred_subset t role _
    (AmbiguityPolicy.mem_of_mem_candidates_apply (by rw [h]; simp [Resolution.candidates]))

/-- A plain name is bound to the preferred declarations of one scope around it. -/
theorem lexical_cases (c : Context) (t : Tree) (name : String) (scope : ScopeId) (role : Role) :
    lexical c t name scope role = .unresolved ∨
      ∃ s sc, (s, sc) ∈ c.scopes.ancestors scope ∧
        lexical c t name scope role = c.policy.apply (t.preferred role (c.scopes.lookup s name)) := by
  rw [lexical]
  cases hlevel : Level.find? t c.scopes scope name role with
  | none => exact .inl rfl
  | some level =>
    obtain ⟨s, hs, hcandidates⟩ := mem_candidates hlevel
    exact .inr ⟨s, level.scope, hs, congrArg c.policy.apply hcandidates⟩

/-- A name that is bound to one declaration finds it in the scope that declares it. -/
theorem exists_scope_of_lexical (h : Registered c.separator t c.scopes) {d : NodeId} {s : ScopeId}
    (hlexical : lexical c t name scope role = .single d) (hd : d ∈ c.scopes.lookup s name) :
    ∃ sc, (s, sc) ∈ c.scopes.ancestors scope ∧
      c.policy.apply (t.preferred role (c.scopes.lookup s name)) = .single d := by
  rcases lexical_cases c t name scope role with hnone | ⟨s', sc, hs', heq⟩
  · rw [hlexical] at hnone
    cases hnone
  · have happly := heq.symm.trans hlexical
    obtain ⟨rfl, -⟩ := h.lookup_unique (mem_lookup_of_apply happly) hd
    exact ⟨sc, hs', happly⟩

/-- What a type names is a record. -/
theorem kind?_of_recordOfType? (h : Registered c.separator t c.scopes) {typeName : String} {d : NodeId}
    (hd : recordOfType? c t typeName scope = some d) : t.kind? d = some .recordDecl := by
  rw [recordOfType?] at hd
  split at hd
  · cases hd
  · rcases Option.or_eq_some_iff.mp hd with hd | ⟨-, hd⟩
    · obtain ⟨q, hq, rfl⟩ := Option.map_eq_some_iff.mp hd
      exact (h.named (Array.mem_toList_iff.mp (List.mem_of_find?_eq_some hq))).1
    · obtain ⟨q, -, hq⟩ := List.exists_of_findSome?_eq_some hd
      simpa using List.find?_some hq

theorem kind?_of_recordOfDeclaration? (h : Registered c.separator t c.scopes) {e d : NodeId}
    (hd : recordOfDeclaration? c t e scope = some d) : t.kind? d = some .recordDecl := by
  simp only [recordOfDeclaration?, Option.bind_eq_bind, Option.bind_eq_some_iff] at hd
  obtain ⟨n, hn, hd⟩ := hd
  split at hd
  · cases hd
    simpa [kind?, hn] using ‹_›
  · obtain ⟨typeName, -, hd⟩ := Option.bind_eq_some_iff.mp hd
    exact kind?_of_recordOfType? h hd

/-- What a base denotes is a record. -/
theorem kind?_of_recordOfBase? (h : Registered c.separator t c.scopes) {base d : NodeId}
    (hd : recordOfBase? c t base scope = some d) : t.kind? d = some .recordDecl := by
  rw [recordOfBase?, Option.bind_eq_bind, Option.bind_eq_some_iff] at hd
  obtain ⟨n, hn, hd⟩ := hd
  split at hd
  · exact kind?_of_recordOfType? h hd
  · obtain ⟨r, -, hd⟩ := Option.bind_eq_some_iff.mp hd
    obtain ⟨e, -, hd⟩ := Option.bind_eq_some_iff.mp hd
    exact kind?_of_recordOfDeclaration? h hd

/-- A base that is bound leads to the record of its declaration. -/
theorem recordOfBase?_of_resolution {base : NodeId} {r : Resolution} (hr : t.resolution? base = some r)
    (scope : ScopeId) :
    recordOfBase? c t base scope = r.single?.bind (recordOfDeclaration? c t · scope) := by
  obtain ⟨n, hn, hp⟩ := Option.bind_eq_some_iff.mp hr
  obtain ⟨_, _, _, _, payload⟩ := n
  rw [recordOfBase?, hn]
  cases payload with
  | reference | member =>
    cases hp
    rfl
  | _ => cases hp

/-- The member of an access is bound to the preferred declarations of the record that the base denotes. -/
theorem memberOf_cases (c : Context) (t : Tree) (record : Option NodeId) (name : String) (role : Role) :
    memberOf c t record name role = .unresolved ∨
      ∃ d s, record = some d ∧ c.scopes.scopeOf? d = some s ∧
        memberOf c t record name role = c.policy.apply (t.preferred role (c.scopes.lookup s name)) := by
  rw [memberOf]
  cases hs : record.bind c.scopes.scopeOf? with
  | none => exact .inl rfl
  | some s =>
    obtain ⟨d, hd, hscope⟩ := Option.bind_eq_some_iff.mp hs
    exact .inr ⟨d, s, hd, hscope, rfl⟩

/-- Resolved members come from one record. -/
theorem memberOf_eq_iff (h : Registered c.separator t c.scopes) {owner : NodeId} {s : ScopeId} {r : Resolution}
    (hs : c.scopes.scopeOf? owner = some s)
    (happly : c.policy.apply (t.preferred role (c.scopes.lookup s name)) = r) (hr : r.isResolved = true)
    {record : Option NodeId} : memberOf c t record name role = r ↔ record = some owner := by
  have hmem : ∀ {q d}, c.policy.apply (t.preferred role (c.scopes.lookup q name)) = r → d ∈ r.candidates →
      d ∈ c.scopes.lookup q name := fun hq hd =>
    preferred_subset t role _ (AmbiguityPolicy.mem_of_mem_candidates_apply (p := c.policy) (hq ▸ hd))
  obtain ⟨d, hd⟩ : ∃ d, d ∈ r.candidates := happly ▸ AmbiguityPolicy.exists_mem_candidates (happly ▸ hr)
  constructor
  · intro hmember
    rcases memberOf_cases c t record name role with hnone | ⟨e, q, rfl, hq, heq⟩
    · rw [← hmember, hnone] at hr
      cases hr
    · obtain ⟨rfl, -⟩ := h.lookup_unique (hmem (heq.symm.trans hmember) hd) (hmem happly hd)
      rw [scopeOf?_inj hq hs]
  · rintro rfl
    rw [memberOf, Option.bind_some, hs]
    exact happly

/-- The scope of a record is a record scope. -/
theorem kind_of_scopeOf? (h : Registered c.separator t c.scopes) {d : NodeId} {s : ScopeId}
    (hk : t.kind? d = some .recordDecl) (hs : c.scopes.scopeOf? d = some s) :
    ∃ sc, c.scopes.get? s = some sc ∧ sc.kind = .record := by
  obtain ⟨sc, hsc, rfl⟩ := get?_of_scopeOf? hs
  obtain ⟨n, hn, hopens⟩ := h.owner hsc
  rw [kind?, hn, Option.map_some, Option.some.injEq, Node.kind, ← Registered.opens?_eq_record_iff,
    hopens] at hk
  exact ⟨sc, hsc, Option.some.inj hk⟩

section
variable {d : NodeId}

theorem exists_of_mem_lookup (h : Grounded t c.scopes) {s : ScopeId}
    (hd : d ∈ c.scopes.lookup s name) : ∃ n, t.get? d = some n := by
  obtain ⟨n, hn, -⟩ := h.declared (ScopeTree.mem_lookup_iff.mp hd)
  exact ⟨n, hn⟩

theorem exists_of_mem_apply (h : Grounded t c.scopes) {s : ScopeId}
    (hd : d ∈ (c.policy.apply (t.preferred role (c.scopes.lookup s name))).candidates) :
    ∃ n, t.get? d = some n :=
  exists_of_mem_lookup h (preferred_subset t role _ (AmbiguityPolicy.mem_of_mem_candidates_apply hd))

theorem exists_of_mem_lexical (h : Grounded t c.scopes)
    (hd : d ∈ (lexical c t name scope role).candidates) : ∃ n, t.get? d = some n := by
  rcases lexical_cases c t name scope role with hnone | ⟨s, -, -, heq⟩
  · rw [hnone] at hd
    cases hd
  · exact exists_of_mem_apply h (heq ▸ hd)

theorem exists_of_mem_memberOf (h : Grounded t c.scopes) {record : Option NodeId}
    (hd : d ∈ (memberOf c t record name role).candidates) : ∃ n, t.get? d = some n := by
  rcases memberOf_cases c t record name role with hnone | ⟨_, s, -, -, heq⟩
  · rw [hnone] at hd
    cases hd
  · exact exists_of_mem_apply h (heq ▸ hd)

/-- The base of a name that is written out is bound to a field that is there. -/
theorem exists_of_written {w : ImplicitAccess} (h : written? c t name scope role = some w) :
    ∃ n, t.get? w.base = some n := by
  simp only [written?, receiver?, Option.bind_eq_bind, Option.bind_eq_some_iff, Option.pure_def,
    Option.some.injEq, name?, Option.map_eq_some_iff] at h
  obtain ⟨_, _, _, _, ⟨_, _⟩, ⟨_, _, _, _, _, ⟨n, hn, _⟩, hpair⟩, rfl⟩ := h
  cases hpair
  exact ⟨n, hn⟩

end

end Binding
end NameResolution
