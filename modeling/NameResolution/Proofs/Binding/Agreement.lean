import NameResolution.Proofs.Binding.Lexical
import NameResolution.Proofs.Binding.Steps

/-!
# What binding depends on

Whatever a walk looks up depends on the declarations of the tree and on the base of an access, never on how
other references are bound. Two trees that differ in references give the same levels, the same implicit
accesses and the same records.
-/
namespace NameResolution

namespace Registration
open NameResolution.Tree ScopeTree

namespace Grounded
variable {t t' : Tree} {S : ScopeTree}

theorem areDeclarations (h : Grounded t S) (s : ScopeId) (name : String) :
    t.AreDeclarations (S.lookup s name) := by
  intro d hd
  obtain ⟨n, hn, hdecl⟩ := h.declared (mem_lookup_iff.mp hd)
  exact ⟨n.kind, by simp [kind?, hn], hdecl⟩

/-- A declaration in the scope tree is the same node in two trees that differ in references. -/
theorem get?_of_mem_lookup (h : Grounded t S) (hsame : t.SameDeclarations t') {s : ScopeId}
    {name : String} {d : NodeId} (hd : d ∈ S.lookup s name) : t'.get? d = t.get? d := by
  obtain ⟨n, hn, hdecl⟩ := h.declared (mem_lookup_iff.mp hd)
  have hk : n.kind.isReference = false := by
    cases hkind : n.kind <;> simp_all [NodeKind.isDeclaration, NodeKind.isReference]
  rw [hn, (hsame hk).mpr hn]

/-- Binding keeps a scope tree grounded. -/
theorem sameDeclarations (h : Grounded t S) (ht : t.WellFormed) (hext : t.Extends t')
    (hsame : t.SameDeclarations t') : Grounded t' S := by
  constructor
  case owner =>
    intro s sc hs
    obtain ⟨k, hk, hopens⟩ := h.owner hs
    obtain ⟨k', hk', hb⟩ := hext.node hk
    exact ⟨k', hk', hb.payload.opens?_eq.trans hopens⟩
  case declared =>
    intro e he
    obtain ⟨n, hn, hdecl⟩ := h.declared he
    obtain ⟨n', hn', hb⟩ := hext.node hn
    exact ⟨n', hn', (isDeclaration_of_becomes hb).trans hdecl⟩
  case supplied =>
    intro s sc m r hs hm hr
    have hm' := (hsame (by rw [Node.kind, hr]; rfl)).mp hm
    obtain ⟨language, hsup⟩ := h.supplied hs hm' hr
    exact ⟨language, hsup.mono ht hm' hext fun hf hd => (hsame (by rw [Node.kind, hd]; rfl)).mpr hf⟩

end Grounded

/-- Binding keeps the scope tree true. -/
theorem Registered.sameDeclarations {separator : String} {t t' : Tree} {S : ScopeTree}
    (h : Registered separator t S) (ht : t.WellFormed) (hext : t.Extends t') (hsame : t.SameDeclarations t') :
    Registered separator t' S := by
  refine h.mono ht hext ?_ ?_ ?_
  · intro e n he hn
    have hget := h.grounded.get?_of_mem_lookup hsame
      (mem_lookup_iff.mpr he : e.declaration ∈ S.lookup e.scope e.name)
    exact ⟨n, hget.trans hn, rfl, rfl⟩
  · intro d m r _ hm hr
    exact (hsame (by rw [Node.kind, hr]; rfl)).mp hm
  · intro f m d hm hd
    exact (hsame (by rw [Node.kind, hd]; rfl)).mpr hm

end Registration

namespace Binding
open NameResolution.Tree ScopeTree Registration

variable {c : Context} {t t' : Tree}

theorem lexical_congr (h : Grounded t c.scopes) (hsame : t.SameDeclarations t')
    (name : String) (scope : ScopeId) (role : Role) :
    lexical c t' name scope role = lexical c t name scope role := by
  have hkind : ∀ s, ∀ d ∈ c.scopes.lookup s name, t'.kind? d = t.kind? d :=
    fun s d hd => by rw [kind?, kind?, h.get?_of_mem_lookup hsame hd]
  rw [lexical, lexical, Level.find?_congr hkind]

/-- What a name is bound to by its level is what it denotes in the scopes around it. -/
theorem denotes_iff (h : Registered c.separator t c.scopes) (ht : t.WellFormed) {x : NodeId} {scope : ScopeId}
    (hx : t.enclosingScope? c.scopes x = some scope) {name : String} {role : Role} {r : Resolution} :
    Denotes t c.scopes c.policy role name (t.enclosingScopes c.scopes x) r ↔
      lexical c t name scope role = r := by
  have hdenotes : Denotes t c.scopes c.policy role name (t.enclosingScopes c.scopes x)
      (lexical c t name scope role) :=
    h.nested.map_fst_ancestors ht hx ▸ denotes_find? (fun s => h.grounded.areDeclarations s name) c.policy scope
  exact ⟨hdenotes.unique, fun he => he ▸ hdenotes⟩

/-- The candidates of a level are declared in its scope. -/
theorem mem_candidates {S : ScopeTree} {scope : ScopeId} {name : String} {role : Role} {level : Level}
    (h : Level.find? t S scope name role = some level) :
    ∃ s, (s, level.scope) ∈ S.ancestors scope ∧
      level.candidates = t.preferred role (S.lookup s name) := by
  have hall : level ∈ Level.all t S scope name role := by
    rw [Level.find?] at h
    rcases Option.or_eq_some_iff.mp h with h | ⟨-, h⟩
    · exact List.mem_of_find?_eq_some h
    · exact List.mem_of_mem_head? h
  obtain ⟨p, hp, rfl⟩ := List.mem_map.mp (List.mem_of_mem_filter hall)
  exact ⟨p.1, hp, rfl⟩

theorem instanceField?_congr (h : Grounded t c.scopes) (hsame : t.SameDeclarations t')
    {name : String} {scope : ScopeId} {role : Role} {level : Level}
    (hl : Level.find? t c.scopes scope name role = some level) :
    instanceField? t' level role (c.policy.apply level.candidates) =
      instanceField? t level role (c.policy.apply level.candidates) := by
  obtain ⟨s, -, hcand⟩ := mem_candidates hl
  unfold instanceField?
  split
  · cases hd : (c.policy.apply level.candidates).single? with
    | none => rfl
    | some d =>
      have happly := Resolution.single?_eq_some.mp hd
      have hmem : d ∈ level.candidates :=
        AmbiguityPolicy.mem_of_mem_candidates_apply (p := c.policy) (by simp [happly, Resolution.candidates])
      rw [hcand] at hmem
      have hget := h.get?_of_mem_lookup hsame (preferred_subset t role _ hmem)
      simp only [Option.filter, hget]
  · rfl

/-- The innermost record around a scope is a record that has its implicit members. -/
theorem exists_of_innermostRecord? (h : Grounded t c.scopes) {scope : ScopeId} {inner : NodeId}
    (hinner : c.scopes.innermostRecord? scope = some inner) :
    ∃ n r language, t.get? inner = some n ∧ n.payload = .recordDecl r ∧ t.Supplied language inner r := by
  obtain ⟨⟨s, sc⟩, hfind, rfl⟩ := Option.map_eq_some_iff.mp hinner
  have hs := Nested.get?_of_mem_climb (List.mem_of_find?_eq_some hfind)
  have hkind : sc.kind = .record := by simpa using List.find?_some hfind
  obtain ⟨n, hn, hopens⟩ := h.owner hs
  have hrec : n.payload.kind = .recordDecl := by
    rw [← Registered.opens?_eq_record_iff, hopens, hkind]
  obtain ⟨r, hp⟩ := Node.exists_record hrec
  obtain ⟨language, hsup⟩ := h.supplied hs hn hp
  exact ⟨n, r, language, hn, hp, hsup⟩

/-- The field through which code reaches an instance is an implicit member of the innermost record around it. -/
theorem exists_of_receiverField? (h : Grounded t c.scopes) {scope : ScopeId} {owner inner field : NodeId}
    (hinner : c.scopes.innermostRecord? scope = some inner) (hf : receiverField? t owner inner = some field) :
    ∃ name typeName, t.get? field = some (implicitNode field inner name typeName) := by
  obtain ⟨n, r, _, hn, hp, hsup⟩ := exists_of_innermostRecord? h hinner
  refine hsup.implicit ?_
  simp only [receiverField?, hn, Option.map_some, hp] at hf
  split at hf
  · exact List.mem_append_left _ (by simp [hf])
  · obtain ⟨o, ho, rfl⟩ := Option.map_eq_some_iff.mp hf
    exact List.mem_append_right _ (List.mem_map_of_mem (List.mem_of_find?_eq_some ho))

theorem receiver?_congr (h : Grounded t c.scopes) (hsame : t.SameDeclarations t')
    (owner : NodeId) (scope : ScopeId) : receiver? c t' owner scope = receiver? c t owner scope := by
  rw [receiver?, receiver?]
  cases hinner : c.scopes.innermostRecord? scope with
  | none => rfl
  | some inner =>
    obtain ⟨n, r, _, hn, hp, -⟩ := exists_of_innermostRecord? h hinner
    have hn' := (hsame (by rw [Node.kind, hp]; rfl)).mpr hn
    have hfield : receiverField? t' owner inner = receiverField? t owner inner := by
      simp only [receiverField?, hn, hn']
    simp only [Option.bind_eq_bind, Option.bind_some, hfield]
    cases hf : receiverField? t owner inner with
    | none => rfl
    | some f =>
      obtain ⟨name, typeName, hm⟩ := exists_of_receiverField? h hinner hf
      have hm' := (hsame (by rfl)).mpr hm
      simp only [Option.bind_some, name?, hm, hm']

theorem written?_congr (h : Grounded t c.scopes) (hsame : t.SameDeclarations t')
    (name : String) (scope : ScopeId) (role : Role) :
    written? c t' name scope role = written? c t name scope role := by
  have hkind : ∀ s, ∀ d ∈ c.scopes.lookup s name, t'.kind? d = t.kind? d :=
    fun s d hd => by rw [kind?, kind?, h.get?_of_mem_lookup hsame hd]
  rw [written?, written?, Level.find?_congr hkind]
  cases hl : Level.find? t c.scopes scope name role with
  | none => rfl
  | some level =>
    simp only [Option.bind_eq_bind, Option.bind_some, instanceField?_congr h hsame hl,
      receiver?_congr h hsame]

theorem recordOfType?_congr (h : Grounded t c.scopes) (hsame : t.SameDeclarations t')
    (typeName : String) (scope : ScopeId) :
    recordOfType? c t' typeName scope = recordOfType? c t typeName scope := by
  have hfind : ∀ s name, ((c.scopes.lookup s name).find? fun d => t'.kind? d == some .recordDecl) =
      (c.scopes.lookup s name).find? fun d => t.kind? d == some .recordDecl := by
    intro s name
    exact List.find?_congr fun d hd => by rw [kind?, kind?, h.get?_of_mem_lookup hsame hd]
  simp only [recordOfType?, hfind]

/-- Only what is there and is no reference leads to a record. -/
theorem recordOfDeclaration?_eq_none {d : NodeId}
    (hd : ∀ n, t.get? d = some n → n.kind.isReference = true) (scope : ScopeId) :
    recordOfDeclaration? c t d scope = none := by
  cases hn : t.get? d with
  | none => simp [recordOfDeclaration?, hn]
  | some n =>
    have hk := hd n hn
    obtain ⟨_, _, _, _, payload⟩ := n
    cases payload with
    | reference | member => simp [recordOfDeclaration?, hn, Payload.kind, Payload.typeName?]
    | _ => cases hk

/-- A declaration leads to the same record, and a reference leads to none. -/
theorem recordOfDeclaration?_congr (h : Grounded t c.scopes) (hsame : t.SameDeclarations t')
    (d : NodeId) (scope : ScopeId) :
    recordOfDeclaration? c t' d scope = recordOfDeclaration? c t d scope := by
  by_cases hlive : ∃ n, t.get? d = some n ∧ n.kind.isReference = false
  · obtain ⟨n, hn, hk⟩ := hlive
    simp only [recordOfDeclaration?, hn, (hsame hk).mpr hn, recordOfType?_congr h hsame]
  · have hreference : ∀ n, t.get? d = some n → n.kind.isReference = true := by
      intro n hn
      by_contra hk
      exact hlive ⟨n, hn, Bool.eq_false_of_not_eq_true hk⟩
    have hreference' : ∀ n, t'.get? d = some n → n.kind.isReference = true := by
      intro n hn
      by_contra hk
      have hk := Bool.eq_false_of_not_eq_true hk
      exact hlive ⟨n, (hsame hk).mp hn, hk⟩
    rw [recordOfDeclaration?_eq_none hreference, recordOfDeclaration?_eq_none hreference']

/-- The record of a base depends on the base and on the declarations. -/
theorem recordOfBase?_congr (h : Grounded t c.scopes) (hsame : t.SameDeclarations t')
    {base : NodeId} (hbase : (t'.get? base).map Node.payload = (t.get? base).map Node.payload)
    (scope : ScopeId) : recordOfBase? c t' base scope = recordOfBase? c t base scope := by
  rw [recordOfBase?, recordOfBase?]
  cases hn : t.get? base with
  | none =>
    rw [hn, Option.map_none, Option.map_eq_none_iff] at hbase
    rw [hbase]
    rfl
  | some n =>
    rw [hn, Option.map_some, Option.map_eq_some_iff] at hbase
    obtain ⟨n', hn', hp⟩ := hbase
    rw [hn']
    simp only [Option.bind_eq_bind, Option.bind_some, hp]
    cases n.payload with
    | newExpr typeName arguments => exact recordOfType?_congr h hsame typeName scope
    | _ => simp only [recordOfDeclaration?_congr h hsame]

theorem memberOf_congr (h : Grounded t c.scopes) (hsame : t.SameDeclarations t')
    (record : Option NodeId) (name : String) (role : Role) :
    memberOf c t' record name role = memberOf c t record name role := by
  have hpreferred : ∀ s, t'.preferred role (c.scopes.lookup s name) =
      t.preferred role (c.scopes.lookup s name) := fun s =>
    preferred_congr (fun d hd => by rw [kind?, kind?, h.get?_of_mem_lookup hsame hd]) role
  simp only [memberOf, hpreferred]

end Binding
end NameResolution
