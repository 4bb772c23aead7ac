import NameResolution.Proofs.Binding.Candidates
import NameResolution.Proofs.Scope.Matching

/-!
# Binding under another numbering

Whatever binding looks up in a registered tree it also finds, under the other numbering, in a tree that matches: the
level of a name, the access that a name is written out to, the record that a type names and the members of a record.
-/
namespace NameResolution

namespace Resolution
variable (f : NodeId → NodeId) (r : Resolution)

theorem single?_map : (r.map f).single? = r.single?.map f := by
  cases r <;> rfl

theorem isResolved_map : (r.map f).isResolved = r.isResolved := by
  cases r <;> rfl

end Resolution

/-- The policies do not look at the numbers of candidates. -/
theorem AmbiguityPolicy.apply_map (p : AmbiguityPolicy) (f : NodeId → NodeId) (ds : List NodeId) :
    p.apply (ds.map f) = (p.apply ds).map f := by
  match ds with
  | [] | [_] => rfl
  | _ :: _ :: _ => cases p <;> rfl

namespace Tree.Matches
variable {g : NodeId → NodeId} {t t' : Tree} {ds : List NodeId}

theorem preferred_map (h : t.Matches g t') (role : Role) (hds : ∀ d ∈ ds, ∃ n, t.get? d = some n) :
    t'.preferred role (ds.map g) = (t.preferred role ds).map g := by
  have hranked : (ds.map g).filterMap (fun d => (t'.kind? d).map fun k => (d, role.rank k)) =
      (ds.filterMap fun d => (t.kind? d).map fun k => (d, role.rank k)).map (Prod.map g id) := by
    rw [List.filterMap_map, List.map_filterMap]
    refine List.filterMap_congr fun d hd => ?_
    obtain ⟨n, hn⟩ := hds d hd
    rw [Function.comp_apply, h.kind?_eq hn, Option.map_map]
    rfl
  have hsnd : ∀ l : List (NodeId × Nat), (l.map (Prod.map g id)).map Prod.snd = l.map Prod.snd := fun l => by
    rw [List.map_map]
    rfl
  simp only [preferred, hranked, hsnd]
  split
  · rfl
  · rw [List.filter_map, List.map_map, List.map_map]
    rfl

theorem isFallback_map (h : t.Matches g t') (role : Role) (hds : ∀ d ∈ ds, ∃ n, t.get? d = some n) :
    t'.isFallback role (ds.map g) = t.isFallback role ds := by
  cases ds with
  | nil => rfl
  | cons d ds =>
    obtain ⟨n, hn⟩ := hds d (by simp)
    simp only [isFallback, List.map_cons, List.head?_cons, Option.bind_some, h.kind?_eq hn]

end Tree.Matches

def Level.map (g : NodeId → NodeId) (σ : ScopeId → ScopeId) (l : Level) : Level :=
  ⟨l.scope.map g σ, l.candidates.map g⟩

namespace Binding
open NameResolution.Tree ScopeTree Registration

def ImplicitAccess.map (g : NodeId → NodeId) (w : ImplicitAccess) : ImplicitAccess := ⟨w.name, g w.base, g w.field⟩

/-- The names of two registered trees that match are bound alike. -/
structure ContextsMatch (g : NodeId → NodeId) (σ : ScopeId → ScopeId) (t t' : Tree) (c c' : Context) : Prop where
  trees : t.Matches g t'
  scopes : c.scopes.Matches g σ t c'.scopes
  policy : c'.policy = c.policy
  separator : c'.separator = c.separator
  registered : Registered c.separator t c.scopes
  registered' : Registered c'.separator t' c'.scopes
  wellFormed : t.WellFormed

namespace ContextsMatch
variable {g : NodeId → NodeId} {σ : ScopeId → ScopeId} {t t' T T' : Tree} {c c' : Context} {scope : ScopeId}
  {sc : Scope} {name : String} {role : Role} {level : Level} {owner inner d : NodeId} {n : Node}

section
variable (h : ContextsMatch g σ t t' c c')
include h

theorem exists_of_mem_all (hl : level ∈ Level.all t c.scopes scope name role) :
    ∀ d ∈ level.candidates, ∃ n, t.get? d = some n := by
  obtain ⟨q, -, rfl⟩ := List.mem_map.mp (List.mem_of_mem_filter hl)
  exact fun d hd => exists_of_mem_lookup h.registered.grounded (t.preferred_subset role _ hd)

theorem all_map (hs : c.scopes.get? scope = some sc) :
    Level.all t' c'.scopes (σ scope) name role = (Level.all t c.scopes scope name role).map (Level.map g σ) := by
  have hlevels :
      (c'.scopes.ancestors (σ scope)).map (fun q => (⟨q.2, t'.preferred role (c'.scopes.lookup q.1 name)⟩ : Level)) =
        ((c.scopes.ancestors scope).map fun q => ⟨q.2, t.preferred role (c.scopes.lookup q.1 name)⟩).map
          (Level.map g σ) := by
    rw [h.scopes.ancestors hs, List.map_map, List.map_map]
    refine List.map_congr_left fun q hq => ?_
    have hget := Nested.get?_of_mem_climb hq
    rw [Function.comp_apply, Function.comp_apply, h.scopes.lookup hget,
      h.trees.preferred_map role fun d hd => exists_of_mem_lookup h.registered.grounded hd]
    rfl
  rw [Level.all, Level.all, show (c'.scopes.ancestors (σ scope)).map _ = _ from hlevels, List.filter_map]
  congr 1
  refine List.filter_congr fun l _ => ?_
  rw [Function.comp_apply, Level.map, List.isEmpty_map]

theorem find?_map (hs : c.scopes.get? scope = some sc) :
    Level.find? t' c'.scopes (σ scope) name role = (Level.find? t c.scopes scope name role).map (Level.map g σ) := by
  rw [Level.find?, Level.find?, h.all_map hs, List.find?_map, List.head?_map, Option.map_or]
  congr 2
  refine List.find?_congr fun l hl => ?_
  rw [Function.comp_apply, Level.map, h.trees.isFallback_map role (h.exists_of_mem_all hl)]

theorem exists_of_mem_level (hl : Level.find? t c.scopes scope name role = some level) :
    ∀ d ∈ level.candidates, ∃ n, t.get? d = some n := by
  rw [Level.find?, Option.or_eq_some_iff] at hl
  rcases hl with hl | ⟨-, hl⟩
  · exact h.exists_of_mem_all (List.mem_of_find?_eq_some hl)
  · exact h.exists_of_mem_all (List.mem_of_head? hl)

theorem apply_map (ds : List NodeId) : c'.policy.apply (ds.map g) = (c.policy.apply ds).map g := by
  rw [h.policy, AmbiguityPolicy.apply_map]

/-- Names are bound alike. -/
theorem lexical_map (hs : c.scopes.get? scope = some sc) :
    lexical c' t' name (σ scope) role = (lexical c t name scope role).map g := by
  rw [lexical, lexical, h.find?_map hs]
  cases Level.find? t c.scopes scope name role with
  | none => rfl
  | some level => exact h.apply_map level.candidates

theorem instanceField?_map (hlevel : ∀ d ∈ level.candidates, ∃ n, t.get? d = some n) :
    instanceField? t' (level.map g σ) role (c'.policy.apply (level.candidates.map g)) =
      (instanceField? t level role (c.policy.apply level.candidates)).map g := by
  have hkind : (level.map g σ).scope.kind = level.scope.kind := rfl
  rw [instanceField?, instanceField?, hkind, h.apply_map, Resolution.single?_map]
  by_cases hfield : level.scope.kind = .record ∧ role = .value
  case neg => rw [if_neg hfield, if_neg hfield, Option.map_none]
  rw [if_pos hfield, if_pos hfield]
  cases hsingle : (c.policy.apply level.candidates).single? with
  | none => rfl
  | some d =>
    obtain ⟨n, hn⟩ : ∃ n, t.get? d = some n := by
      refine hlevel d (AmbiguityPolicy.mem_of_mem_candidates_apply (p := c.policy) ?_)
      rw [Resolution.single?_eq_some.mp hsingle]
      exact List.mem_singleton_self d
    obtain ⟨n', hn', hm⟩ := h.trees.node hn
    simp only [Option.map_some, Option.filter_some, hn, hn', Option.any_some, hm.payload.isInstanceField_eq]
    split <;> rfl

theorem receiverField?_map (hinner : c.scopes.innermostRecord? scope = some inner) (howner : t.get? owner = some n) :
    receiverField? t' (g owner) (g inner) = (receiverField? t owner inner).map g := by
  obtain ⟨k, r, _, hk, hr, hsup⟩ := exists_of_innermostRecord? h.registered.grounded hinner
  obtain ⟨k', hk', hm⟩ := h.trees.node hk
  have hpayload := hm.payload
  rw [hr] at hpayload
  obtain ⟨ms, -, hr'⟩ := hpayload.of_record
  have hself : g owner = g inner ↔ owner = inner := ⟨h.trees.inj howner hk, congrArg g⟩
  simp only [receiverField?, hk, hk', Option.map_some, hr, hr', hself]
  split
  · rfl
  · simp only [Record.map, List.find?_map, Option.map_map]
    congr 1
    refine List.find?_congr fun o ho => ?_
    have hmem : o.record ∈ t.enclosingRecords inner := hsup.records ▸ List.mem_map_of_mem ho
    obtain ⟨m, hm⟩ := h.wellFormed.exists_of_mem_ancestors (List.mem_of_mem_filter hmem)
    rw [Function.comp_apply, Bool.eq_iff_iff, beq_iff_eq, beq_iff_eq]
    exact ⟨h.trees.inj hm howner, congrArg g⟩

theorem receiver?_map (hs : c.scopes.get? scope = some sc) (howner : t.get? owner = some n) :
    receiver? c' t' (g owner) (σ scope) = (receiver? c t owner scope).map fun q => (q.1, g q.2) := by
  simp only [receiver?, Option.bind_eq_bind, Option.pure_def, h.scopes.innermostRecord?_eq hs]
  cases hinner : c.scopes.innermostRecord? scope with
  | none => rfl
  | some inner =>
    rw [Option.map_some, Option.bind_some, Option.bind_some, h.receiverField?_map hinner howner]
    cases hfield : receiverField? t owner inner with
    | none => rfl
    | some field =>
      obtain ⟨_, _, hnode⟩ := exists_of_receiverField? h.registered.grounded hinner hfield
      obtain ⟨m', hm', hm⟩ := h.trees.node hnode
      simp only [Option.map_some, Option.bind_some, name?, hnode, hm', hm.name]

/-- The same names are written out, and to accesses that match. -/
theorem written?_map (hs : c.scopes.get? scope = some sc) :
    written? c' t' name (σ scope) role = (written? c t name scope role).map (ImplicitAccess.map g) := by
  simp only [written?, Option.bind_eq_bind, Option.pure_def, h.find?_map hs]
  cases hl : Level.find? t c.scopes scope name role with
  | none => rfl
  | some level =>
    obtain ⟨s, hmem, -⟩ := mem_candidates hl
    obtain ⟨k, hk, -⟩ := h.registered.owner (Nested.get?_of_mem_climb hmem)
    have hfield : instanceField? t' (level.map g σ) role (c'.policy.apply (level.map g σ).candidates) =
        (instanceField? t level role (c.policy.apply level.candidates)).map g :=
      h.instanceField?_map (h.exists_of_mem_level hl)
    have hreceiver : receiver? c' t' (level.map g σ).scope.owner (σ scope) =
        (receiver? c t level.scope.owner scope).map fun q => (q.1, g q.2) := h.receiver?_map hs hk
    rw [Option.map_some, Option.bind_some, Option.bind_some, hfield, hreceiver]
    cases instanceField? t level role (c.policy.apply level.candidates) with
    | none => rfl
    | some field => cases receiver? c t level.scope.owner scope <;> rfl

theorem recordOfType?_map (hs : c.scopes.get? scope = some sc) (typeName : String) :
    recordOfType? c' t' typeName (σ scope) = (recordOfType? c t typeName scope).map g := by
  simp only [recordOfType?, h.scopes.recordNamed?, h.scopes.ancestors hs, h.separator]
  split
  · rfl
  · rw [Option.map_or, List.findSome?_map, List.map_findSome?, ← List.head?_filterMap, ← List.head?_filterMap]
    congr 2
    refine List.filterMap_congr fun q hq => ?_
    have hget := Nested.get?_of_mem_climb hq
    rw [Function.comp_apply, Function.comp_apply, h.scopes.lookup hget, List.find?_map]
    congr 1
    refine List.find?_congr fun d hd => ?_
    obtain ⟨n, hn⟩ := exists_of_mem_lookup h.registered.grounded hd
    rw [Function.comp_apply, h.trees.kind?_eq hn]

theorem recordOfDeclaration?_map (hs : c.scopes.get? scope = some sc) (hd : t.get? d = some n) :
    recordOfDeclaration? c' t' (g d) (σ scope) = (recordOfDeclaration? c t d scope).map g := by
  obtain ⟨n', hn', hm⟩ := h.trees.node hd
  simp only [recordOfDeclaration?, hd, hn', Option.bind_eq_bind, Option.bind_some, Option.pure_def,
    hm.payload.kind_eq, hm.payload.typeName?_eq]
  split
  · rfl
  · cases n.payload.typeName? with
    | none => rfl
    | some typeName => exact h.recordOfType?_map hs typeName

/-- Members of records that match are bound alike. -/
theorem memberOf_map {record : Option NodeId} (hrecord : ∀ d, record = some d → ∃ n, t.get? d = some n) :
    memberOf c' t' (record.map g) name role = (memberOf c t record name role).map g := by
  cases record with
  | none => rfl
  | some d =>
    obtain ⟨n, hn⟩ := hrecord d rfl
    rw [memberOf, memberOf, Option.map_some, Option.bind_some, Option.bind_some, h.scopes.scopeOf? hn]
    cases hs : c.scopes.scopeOf? d with
    | none => rfl
    | some s =>
      obtain ⟨sc, hsc, -⟩ := get?_of_scopeOf? hs
      change c'.policy.apply (t'.preferred role (c'.scopes.lookup (σ s) name)) = _
      rw [h.scopes.lookup hsc,
        h.trees.preferred_map role fun d hd => exists_of_mem_lookup h.registered.grounded hd, h.apply_map]

/-- Bases that match lead to records that match. -/
theorem recordOfBase?_map (hsame : t.SameDeclarations T) (hsame' : t'.SameDeclarations T') {base base' : NodeId}
    {b b' : Node} {k : NodeId → NodeId} (hs : c.scopes.get? scope = some sc) (hb : T.get? base = some b)
    (hb' : T'.get? base' = some b') (hm : b.payload.Matches k b'.payload)
    (hk : ∀ r, b.payload.resolution? = some r → ∀ d ∈ r.candidates, k d = g d ∧ ∃ n, t.get? d = some n) :
    recordOfBase? c' T' base' (σ scope) = (recordOfBase? c T base scope).map g := by
  have hground := h.registered.grounded
  have hground' := h.registered'.grounded
  cases hr : b.payload.resolution? with
  | some r =>
    have hr' : b'.payload.resolution? = some (r.map k) := by rw [hm.resolution?_eq, hr, Option.map_some]
    rw [recordOfBase?_of_resolution (resolution?_of_get? hb hr),
      recordOfBase?_of_resolution (resolution?_of_get? hb' hr'), Resolution.single?_map]
    cases hd : r.single? with
    | none => rfl
    | some d =>
      obtain ⟨hkd, n, hn⟩ := hk r hr d (by rw [Resolution.single?_eq_some.mp hd]; exact List.mem_singleton_self d)
      rw [Option.map_some, Option.bind_some, Option.bind_some, recordOfDeclaration?_congr hground hsame,
        recordOfDeclaration?_congr hground' hsame', hkd, h.recordOfDeclaration?_map hs hn]
  | none =>
    simp only [recordOfBase?, hb, hb', Option.bind_eq_bind, Option.bind_some]
    obtain ⟨_, _, _, _, payload⟩ := b
    obtain ⟨_, _, _, _, payload'⟩ := b'
    cases payload with
    | newExpr typeName arguments =>
      obtain rfl : payload' = .newExpr typeName (arguments.map k) := by
        cases hm
        rfl
      simp only
      rw [recordOfType?_congr hground hsame, recordOfType?_congr hground' hsame', h.recordOfType?_map hs]
    | reference | member => cases hr
    | _ => cases hm <;> rfl

end
end ContextsMatch
end Binding
end NameResolution
