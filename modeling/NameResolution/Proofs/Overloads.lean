import NameResolution.Proofs.Binding.Candidates
import NameResolution.Proofs.Registration.ImplicitNames
import NameResolution.Proofs.Resolve

/-!
# Overloads

Where no record has a path for a name, nothing but methods and functions shares a name in a scope. The preferred
candidates for a reference are all of one rank, so that a name with more than one of them is
overloaded.
-/
namespace NameResolution
open NameResolution.Tree ScopeTree

/-- Several methods or functions that one scope declares under one name. -/
structure Overloads (t : Tree) (S : ScopeTree) (ds : List NodeId) : Prop where
  several : 2 ≤ ds.length
  distinct : ds.Nodup
  callable : ∀ d ∈ ds, (t.kind? d).any NodeKind.isCallable = true
  declared : ∃ s name, ds.Sublist (S.lookup s name)

theorem Overloads.sameDeclarations {t t' : Tree} {S : ScopeTree} {ds : List NodeId} (h : Overloads t S ds)
    (hsame : t.SameDeclarations t') : Overloads t' S ds := by
  refine ⟨h.several, h.distinct, fun d hd => ?_, h.declared⟩
  have hcallable := h.callable d hd
  cases hn : t.get? d with
  | none => simp [kind?, hn] at hcallable
  | some n =>
    have hkind : n.kind.isReference = false := by
      rw [kind?, hn, Option.map_some, Option.any_some] at hcallable
      cases hk : n.kind <;> rw [hk] at hcallable <;> first | rfl | cases hcallable
    rwa [kind?, (hsame hkind).mpr hn, ← hn]

/-- Methods and functions are of one rank, which no other declaration is of. -/
theorem Role.isCallable_eq {k : NodeKind} (hk : k.isDeclaration = true) (role : Role) :
    k.isCallable = (role.rank k == match role with | .value => 2 | .callee => 0) := by
  cases role <;> cases k <;> first | rfl | cases hk

namespace Tree
variable {config : Config} {t : Tree} {root : NodeId} {p : Registration.Progress}

/-- The preferred candidates are all of one rank. -/
theorem exists_rank_of_preferred (t : Tree) (role : Role) (ds : List NodeId) :
    ∃ best, ∀ d ∈ t.preferred role ds, ∃ k, t.kind? d = some k ∧ role.rank k = best := by
  rw [preferred]
  split
  · exact ⟨0, by simp⟩
  · rename_i best _
    refine ⟨best, fun d hd => ?_⟩
    obtain ⟨q, hq, rfl⟩ := List.mem_map.mp hd
    obtain ⟨hq, hrank⟩ := List.mem_filter.mp hq
    obtain ⟨e, -, he⟩ := List.mem_filterMap.mp hq
    obtain ⟨k, hk, rfl⟩ := Option.map_eq_some_iff.mp he
    exact ⟨k, hk, eq_of_beq hrank⟩

/-- Registration adds no records and renames none. -/
theorem RegistersIn.flatRecords {languages : Set String} {separator : String}
    (h : RegistersIn languages config t root p) (hflat : t.FlatRecords separator) :
    p.tree.FlatRecords separator := by
  intro id n hn hk
  have hwalked := h.walked
  rcases hwalked.proper.exists_or_implicit h.proper.toWellFormed hwalked.toExtends hwalked.keeps hn with
    ⟨m, hm⟩ | ⟨d, hd, -⟩
  · obtain ⟨n', hn', hb⟩ := hwalked.toExtends.node hm
    rw [hn] at hn'
    cases hn'
    rw [hb.name]
    exact hflat id m hm (hb.payload.kind_recordDecl_iff.mp hk)
  · rw [Node.kind, hd] at hk
    cases hk

namespace RegistersIn
open Registration

/-- An implicit field that is declared is a member of the record whose scope declares it. -/
theorem implicit_entry (h : Registers config t root p) {e : Entry} (he : e ∈ p.scopes.entries)
    (himplicit : IsImplicitField p.tree e.declaration) :
    ∃ id n r, p.tree.get? id = some n ∧ n.payload = .recordDecl r ∧ e.declaration ∈ r.implicitFields ∧
      p.scopes.scopeOf? id = some e.scope := by
  have hreg := h.registered
  have hwf := hreg.proper.toWellFormed
  obtain ⟨k, hk, -, -⟩ := h.proper.root_parent h.root_eq
  obtain ⟨m, d, hm, hd, hi⟩ := himplicit
  obtain ⟨id, n, r, hparent, hn, hr, hf⟩ := hreg.proper.exists_owner hm hd hi
  refine ⟨id, n, r, hn, hr, hf, ?_⟩
  rcases hreg.entry_entered he with hentered | ⟨record, name, typeName, hentered, hnode⟩
  · -- The walk does not enter implicit fields.
    obtain ⟨m', hm'⟩ := exists_of_enter_mem h.proper.toWellFormed hk hentered
    refine absurd ⟨m', d, hm', ?_, hi⟩
      (not_implicit_of_enter_mem h.proper h.root_not_implicit hentered)
    obtain ⟨m'', hm'', hb⟩ := hreg.toExtends.node hm'
    rw [hm] at hm''
    cases hm''
    have hp := hb.payload
    rw [hd] at hp
    exact hp.eq_of_kind rfl (by simp [Payload.kind])
  · rw [hnode] at hm
    cases hm
    obtain rfl : record = id := Option.some.inj hparent
    obtain ⟨n₀, hn₀⟩ := exists_of_enter_mem h.proper.toWellFormed hk hentered
    obtain ⟨n', hn', hb⟩ := hreg.toExtends.node hn₀
    rw [hn] at hn'
    cases hn'
    have hopens : n₀.payload.opens? = some .record := by
      rw [← hb.payload.opens?_eq, hr]
      rfl
    obtain ⟨s, hs⟩ := Option.isSome_iff_exists.mp (hreg.scope_opened hentered hn₀ hopens)
    obtain ⟨_, _, -, -, hin⟩ := hreg.registered.entry he
    rw [hwf.enclosingScope?_of_child hn (Node.mem_children_of_implicitFields hr hf), hs] at hin
    exact hs.trans hin

/-- Whatever claims a name in a scope has it for itself. -/
theorem eq_of_claimsName (h : Registers config t root p) (hflat : t.FlatRecords config.separator)
    {s : ScopeId} {name : String} {d e : NodeId} (hd : d ∈ p.scopes.lookup s name)
    (he : e ∈ p.scopes.lookup s name) (hclaim : ClaimsName p.tree d) (hclaim' : ClaimsName p.tree e) : d = e := by
  have hreg := h.registered.registered
  have hentry := mem_lookup_iff.mp hd
  have hentry' := mem_lookup_iff.mp he
  by_cases himplicit : IsImplicitField p.tree d
  · by_cases himplicit' : IsImplicitField p.tree e
    · obtain ⟨id, n, r, hn, hr, hf, hs⟩ := h.implicit_entry hentry himplicit
      obtain ⟨id', n', r', hn', hr', hf', hs'⟩ := h.implicit_entry hentry' himplicit'
      obtain rfl := scopeOf?_inj hs hs'
      rw [hn] at hn'
      cases hn'
      rw [hr] at hr'
      cases hr'
      obtain ⟨m, hm, -, hname, -⟩ := hreg.entry hentry
      obtain ⟨k, hk, -, hname', -⟩ := hreg.entry hentry'
      have hfield : ∀ {x m}, IsImplicitField p.tree x → p.tree.get? x = some m →
          declaredName config.separator m = m.name := by
        rintro x m ⟨m', d, hm', hd, -⟩ hm
        rw [hm] at hm'
        cases hm'
        simp [declaredName, Node.isRecord, Node.kind, hd, Payload.kind]
      exact (hreg.supplied hn hr hs).eq_of_name (h.flatRecords hflat) config.length_separator_pos
        h.walked.proper.toWellFormed hf hf' hm hk
        ((hfield himplicit hm).symm.trans (hname.trans (hname'.symm.trans (hfield himplicit' hk))))
    · exact congrArg Entry.declaration (hreg.sole hentry' hentry rfl rfl hclaim' himplicit' hclaim)
  · exact (congrArg Entry.declaration (hreg.sole hentry hentry' rfl rfl hclaim himplicit hclaim')).symm

/-- Several preferred candidates are overloads. -/
theorem overloads_of_preferred (h : Registers config t root p) (hflat : t.FlatRecords config.separator)
    {role : Role} {s : ScopeId} {name : String} {ds : List NodeId}
    (hds : p.tree.preferred role (p.scopes.lookup s name) = ds) (hseveral : 2 ≤ ds.length) :
    Overloads p.tree p.scopes ds := by
  have hreg := h.registered.registered
  have hsub : ds.Sublist (p.scopes.lookup s name) :=
    hds ▸ preferred_sublist (hreg.grounded.areDeclarations s name) role
  have hnodup : ds.Nodup := (hreg.nodup_lookup s name).sublist hsub
  refine ⟨hseveral, hnodup, ?_, s, name, hsub⟩
  obtain ⟨best, hbest⟩ := exists_rank_of_preferred p.tree role (p.scopes.lookup s name)
  rw [hds] at hbest
  have hdecl : ∀ d ∈ ds, ∃ k, p.tree.kind? d = some k ∧ k.isDeclaration = true ∧ role.rank k = best := by
    intro d hd
    obtain ⟨k, hk, hrank⟩ := hbest d hd
    obtain ⟨k', hk', hdecl⟩ := hreg.grounded.areDeclarations s name d (hsub.subset hd)
    rw [hk] at hk'
    cases hk'
    exact ⟨k, hk, hdecl, hrank⟩
  by_contra hno
  push Not at hno
  obtain ⟨d, hd, hvalue⟩ := hno
  obtain ⟨k, hk, hdeclaration, hrank⟩ := hdecl d hd
  rw [hk, Option.any_some, Role.isCallable_eq hdeclaration role, hrank] at hvalue
  -- Then no candidate is callable, and they all claim the name.
  have hclaims : ∀ e ∈ ds, ClaimsName p.tree e := by
    intro e he
    obtain ⟨k', hk', hdeclaration', hrank'⟩ := hdecl e he
    have hunique := hdeclaration'
    rw [NodeKind.isDeclaration_eq, Role.isCallable_eq hdeclaration' role, hrank', eq_false_of_ne_true hvalue,
      Bool.false_xor] at hunique
    rw [ClaimsName, hk', Option.any_some, hunique]
  have hall : ∀ e ∈ ds, e = d := fun e he =>
    h.eq_of_claimsName hflat (hsub.subset he) (hsub.subset hd) (hclaims e he) (hclaims d hd)
  have hsingle : ds ⊆ [d] := fun e he => List.mem_singleton.mpr (hall e he)
  have hlength := (hnodup.subperm hsingle).length_le
  rw [List.length_singleton] at hlength
  omega

end RegistersIn
end Tree
end NameResolution
