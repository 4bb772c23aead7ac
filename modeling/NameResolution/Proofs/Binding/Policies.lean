import NameResolution.Proofs.Binding.Receiver

/-!
# What policies cannot change

Which names are written out does not depend on what becomes of ambiguous names: a field of an instance is alone
among the values of its name in its scope. Nor is a name written out that is the name of the receiver for
the code it stands in, since the receiver has the name for itself in the scope of the innermost record.
-/
namespace NameResolution

namespace Tree
variable {t : Tree} {ds : List NodeId} {d : NodeId}

/-- Where there is a variable, a parameter or a field, a value is one of them. -/
theorem suited_value (hd : d ∈ ds) (hkind : t.isOneOf [.variableDecl, .parameterDecl, .fieldDecl] d = true) :
    t.suited .value ds = ds.filter (t.isOneOf [.variableDecl, .parameterDecl, .fieldDecl]) := by
  have hmem : d ∈ ds.filter (t.isOneOf [.variableDecl, .parameterDecl, .fieldDecl]) :=
    List.mem_filter.mpr ⟨hd, hkind⟩
  rw [suited]
  split
  case h_1 hnone =>
    rw [hnone] at hmem
    cases hmem
  case h_2 => rfl

end Tree

namespace Registration.Registered
open NameResolution.Tree ScopeTree
variable {separator : String} {t : Tree} {S : ScopeTree} {s : ScopeId} {name : String} {d f : NodeId}

/-- Nothing else claims the name of a field of an instance. -/
theorem eq_of_isInstanceField (h : Registered separator t S) (hf : f ∈ S.lookup s name)
    (hinstance : (t.get? f).any (·.payload.isInstanceField) = true) (hd : d ∈ S.lookup s name)
    (hclaim : ClaimsName t d) : d = f := by
  obtain ⟨⟨_, _, _, _, payload⟩, hm, hp⟩ := (Option.any_eq_true ..).mp hinstance
  cases payload with
  | fieldDecl field =>
    have hsole := h.sole (mem_lookup_iff.mp hf) (mem_lookup_iff.mp hd) rfl rfl ?_ ?_ hclaim
    · exact congrArg Entry.declaration hsole
    · simp [ClaimsName, kind?, hm, Node.kind, Payload.kind, NodeKind.isUniquePerScope]
    · rintro ⟨m, d, hm', hd, hi⟩
      rw [hm] at hm'
      cases hm'
      cases hd
      simp [Payload.isInstanceField, hi] at hp
  | _ => cases hp

/-- A field of an instance is the only candidate for a value. -/
theorem preferred_eq_singleton (h : Registered separator t S) (hf : f ∈ S.lookup s name)
    (hinstance : (t.get? f).any (·.payload.isInstanceField) = true) :
    t.preferred .value (S.lookup s name) = [f] := by
  have hkind : t.isOneOf [.variableDecl, .parameterDecl, .fieldDecl] f = true := by
    obtain ⟨⟨_, _, _, _, payload⟩, hm, hp⟩ := (Option.any_eq_true ..).mp hinstance
    cases payload with
    | fieldDecl => simp [isOneOf, kind?, hm, Node.kind, Payload.kind]
    | _ => cases hp
  have hsuited := suited_value hf hkind
  have hmem : f ∈ t.suited .value (S.lookup s name) := by
    rw [hsuited]
    exact List.mem_filter.mpr ⟨hf, hkind⟩
  rw [preferred_of_suited (h.grounded.areDeclarations s name) (List.ne_nil_of_mem hmem), hsuited]
  apply List.perm_singleton.mp
  apply (List.perm_ext_iff_of_nodup ((h.nodup_lookup s name).filter _) (List.nodup_singleton f)).mpr
  intro d
  rw [List.mem_singleton]
  constructor
  · intro hd
    obtain ⟨hd, hone⟩ := List.mem_filter.mp hd
    refine h.eq_of_isInstanceField hf hinstance hd ?_
    obtain ⟨k, hk, hone⟩ := (Option.any_eq_true ..).mp hone
    rw [ClaimsName, hk, Option.any_some]
    cases k <;> first | rfl | cases hone
  · rintro rfl
    exact List.mem_filter.mpr ⟨hf, hkind⟩

end Registration.Registered

namespace Binding
open NameResolution.Tree ScopeTree Registration
variable {t : Tree} {S : ScopeTree} {x : NodeId} {scope : ScopeId} {name separator : String} {role : Role}

/-- The field of an instance that a level holds is found under any policy. -/
theorem instanceField?_of_policy (h : Registered separator t S) {level : Level}
    (hlevel : Level.find? t S scope name role = some level) (p q : AmbiguityPolicy) :
    instanceField? t level role (p.apply level.candidates) =
      instanceField? t level role (q.apply level.candidates) := by
  obtain ⟨s, -, hcandidates⟩ := mem_candidates hlevel
  have hfound : ∀ {p q : AmbiguityPolicy} {f}, instanceField? t level role (p.apply level.candidates) = some f →
      instanceField? t level role (q.apply level.candidates) = some f := by
    intro p q f hf
    rw [instanceField?] at hf ⊢
    split at hf
    case isFalse => cases hf
    case isTrue hplace =>
      obtain ⟨hsingle, hinstance⟩ := Option.filter_eq_some_iff.mp hf
      have hmem : f ∈ level.candidates :=
        AmbiguityPolicy.mem_of_mem_candidates_apply (p := p)
          (by simp [Resolution.single?_eq_some.mp hsingle, Resolution.candidates])
      rw [hcandidates] at hmem
      have hone : level.candidates = [f] := by
        rw [hcandidates, hplace.2]
        exact h.preferred_eq_singleton (preferred_subset t role _ hmem) hinstance
      rw [if_pos hplace, hone]
      exact Option.filter_eq_some_iff.mpr ⟨rfl, hinstance⟩
  apply Option.ext
  intro f
  exact ⟨hfound, hfound⟩

/-- Under any policy the same names are written out. -/
theorem written?_of_policy (h : Registered separator t S) (p q : AmbiguityPolicy) :
    written? ⟨S, p, separator⟩ t name scope role = written? ⟨S, q, separator⟩ t name scope role := by
  rw [written?, written?]
  cases hlevel : Level.find? t S scope name role with
  | none => rfl
  | some level =>
    simp only [Option.bind_eq_bind, Option.bind_some, instanceField?_of_policy h hlevel p q]
    rfl

/-- The scope of the innermost record around the code declares the receiver. -/
theorem Receiver.exists_innermost {c : Context} {owner inner field : NodeId} {m : Node}
    (hr : Receiver t c.scopes x owner inner field) (h : Registered c.separator t c.scopes)
    (ht : t.WellFormed) (hx : t.enclosingScope? c.scopes x = some scope) (hm : t.get? field = some m) :
    ∃ q, (c.scopes.ancestors scope).find? (·.2.kind == .record) = some q ∧ field ∈ c.scopes.lookup q.1 m.name := by
  obtain ⟨s, hs, -, hfield⟩ := hr.mem_lookup h hm
  obtain ⟨q, hq, rfl⟩ := Option.map_eq_some_iff.mp ((h.nested.innermostRecord?_eq ht hx).trans hr.innermost)
  rw [h.opened (Nested.get?_of_mem_climb (List.mem_of_find?_eq_some hq))] at hs
  cases hs
  exact ⟨q, hq, hfield⟩

/-- The name of a receiver is not written out in the code that it is the receiver for. -/
theorem Receiver.written?_eq_none {c : Context} {owner inner field : NodeId} {m : Node}
    (hr : Receiver t c.scopes x owner inner field) (h : Registered c.separator t c.scopes)
    (ht : t.WellFormed) (hx : t.enclosingScope? c.scopes x = some scope) (hm : t.get? field = some m) :
    written? c t m.name scope .value = none := by
  obtain ⟨_, _, hnode⟩ := hr.node
  have hkind : t.kind? field = some .fieldDecl := by
    rw [kind?, hnode]
    rfl
  obtain ⟨q, hq, hfield⟩ := hr.exists_innermost h ht hx hm
  -- The receiver is a value, so that the level is no further out.
  have hsuited : t.suited .value (c.scopes.lookup q.1 m.name) ≠ [] := by
    have hone : t.isOneOf [.variableDecl, .parameterDecl, .fieldDecl] field = true := by
      rw [isOneOf, hkind]
      rfl
    rw [suited_value hfield hone]
    exact List.ne_nil_of_mem (List.mem_filter.mpr ⟨hfield, hone⟩)
  obtain ⟨p, hp⟩ := Option.isSome_iff_exists.mp <| List.find?_isSome
    (p := fun p => t.suited .value (c.scopes.lookup p.1 m.name) ≠ []) |>.mpr
      ⟨q, List.mem_of_find?_eq_some hq, decide_eq_true hsuited⟩
  by_contra hne
  obtain ⟨w, hw⟩ := Option.ne_none_iff_exists'.mp hne
  obtain ⟨-, hlexical, hinstance, s, sc, hs, hk, hmem, -⟩ := (written?_eq_some_iff h).mp hw
  have hfound : w.field ∈ c.scopes.lookup p.1 m.name := by
    rw [lexical, Level.find?_eq (fun s => h.grounded.areDeclarations s m.name), hp, Option.some_or,
      Option.map_some] at hlexical
    exact mem_lookup_of_apply hlexical
  obtain ⟨rfl, -⟩ := h.lookup_unique hmem hfound
  -- Nor is it nearer, since it is the scope of a record.
  have hscope : p.2 = sc := by
    have hget := Nested.get?_of_mem_climb (List.mem_of_find?_eq_some hp)
    exact Option.some.inj (hget.symm.trans (Nested.get?_of_mem_climb hs))
  obtain rfl : p = q := eq_of_find? hp hq (by simp [hscope, hk]) (decide_eq_true hsuited)
  obtain rfl : field = w.field := by
    refine h.eq_of_isInstanceField hmem hinstance hfield ?_
    rw [ClaimsName, hkind]
    rfl
  rw [hnode] at hinstance
  cases hinstance

end Binding
end NameResolution
