import NameResolution.Proofs.Binding.Candidates

/-!
# Receivers

A name that is bound to a field of an instance is written out to an access through a field of the innermost
record around it. In a registered tree that field is always there: every record that is innermost somewhere
has `this` and a field for each record around it.
-/
namespace NameResolution.Binding
open NameResolution.Tree ScopeTree Registration

/-- `field` is the implicit member through which code in `inner`, the innermost record around `x`, reaches
the instance of `owner`. -/
structure Receiver (t : Tree) (S : ScopeTree) (x owner inner field : NodeId) : Prop where
  innermost :
    (t.ancestors x).find? (fun a => t.kind? a == some .recordDecl && (S.scopeOf? a).isSome) = some inner
  member : ∃ n r, t.get? inner = some n ∧ n.payload = .recordDecl r ∧
    ((owner = inner ∧ r.implicitThis = some field) ∨
      (owner ≠ inner ∧ (⟨owner, field⟩ : OuterInstance) ∈ r.implicitOuter))
  node : ∃ name typeName, t.get? field = some (implicitNode field inner name typeName)

variable {c : Context} {t : Tree} {x : NodeId} {scope s : ScopeId} {sc : Scope} {name : String} {role : Role}

theorem mem_enclosingScopes_of_mem_ancestors (h : Registered c.separator t c.scopes) (ht : t.WellFormed)
    (hx : t.enclosingScope? c.scopes x = some scope) (hs : (s, sc) ∈ c.scopes.ancestors scope) :
    s ∈ t.enclosingScopes c.scopes x :=
  h.nested.map_fst_ancestors ht hx ▸ List.mem_map_of_mem hs

/-- The owner of a record scope is a record. -/
theorem exists_record_of_scope (h : Registered c.separator t c.scopes) (hs : c.scopes.get? s = some sc)
    (hk : sc.kind = .record) : ∃ n r, t.get? sc.owner = some n ∧ n.payload = .recordDecl r := by
  obtain ⟨n, hn, hopens⟩ := h.owner hs
  have hkind : n.payload.kind = .recordDecl := by
    rw [← Registered.opens?_eq_record_iff, hopens, hk]
  cases hp : n.payload <;> simp_all [Payload.kind]

/-- Code inside the scope of a record has a receiver for its instance. -/
theorem exists_receiver (h : Registered c.separator t c.scopes) (ht : t.WellFormed)
    (hx : t.enclosingScope? c.scopes x = some scope) (hs : (s, sc) ∈ c.scopes.ancestors scope)
    (hk : sc.kind = .record) :
    ∃ inner field m, receiver? c t sc.owner scope = some (m.name, field) ∧ t.get? field = some m ∧
      Receiver t c.scopes x sc.owner inner field := by
  have hget := Nested.get?_of_mem_climb hs
  have howner := h.opened hget
  obtain ⟨n, r, hn, hp⟩ := exists_record_of_scope h hget hk
  obtain ⟨a, ha, hscope⟩ := mem_enclosingScopes.mp (mem_enclosingScopes_of_mem_ancestors h ht hx hs)
  have hmem : sc.owner ∈ t.ancestors x := scopeOf?_inj howner hscope ▸ ha
  -- The owner is a candidate for the innermost record, so there is one.
  have hcandidate : (t.kind? sc.owner == some .recordDecl && (c.scopes.scopeOf? sc.owner).isSome) = true := by
    simp [kind?, hn, Node.kind, hp, Payload.kind, howner]
  have hfound : ((t.ancestors x).find? fun a =>
      t.kind? a == some .recordDecl && (c.scopes.scopeOf? a).isSome).isSome :=
    List.find?_isSome.mpr ⟨sc.owner, hmem, hcandidate⟩
  obtain ⟨inner, hinner⟩ := Option.isSome_iff_exists.mp hfound
  obtain ⟨hinnerRecord, nearer, further, habove, hnearer⟩ := List.find?_eq_some_iff_append.mp hinner
  rw [Bool.and_eq_true, beq_iff_eq, Option.isSome_iff_exists] at hinnerRecord
  obtain ⟨hkind, q, hq⟩ := hinnerRecord
  obtain ⟨k, hk', hkr⟩ := Option.map_eq_some_iff.mp hkind
  obtain ⟨ri, hri⟩ := Node.exists_record hkr
  have hsup := h.supplied hk' hri hq
  have hreceiver : ∀ {field m}, receiverField? t sc.owner inner = some field → t.get? field = some m →
      receiver? c t sc.owner scope = some (m.name, field) := by
    intro field m hfield hm
    simp [receiver?, h.nested.innermostRecord?_eq ht hx, hinner, hfield, name?, hm]
  by_cases he : sc.owner = inner
  · obtain ⟨f, hf, hm⟩ := hsup.this
    have hfield : receiverField? t sc.owner inner = some f := by
      simp [receiverField?, hk', hri, he, hf]
    exact ⟨inner, f, _, hreceiver hfield hm, hm, hinner, ⟨k, ri, hk', hri, .inl ⟨he, hf⟩⟩, _, _, hm⟩
  · have houter : sc.owner ∈ t.enclosingRecords inner := by
      refine List.mem_filter.mpr ⟨?_, by simp [kind?, hn, Node.kind, hp, Payload.kind]⟩
      have hl := ht.lineage_ancestors_of_mem hmem
      rw [habove] at hl hmem
      rw [hl.of_append.ancestors_eq]
      rcases List.mem_append.mp hmem with hnear | hfar
      · have hno := hnearer _ hnear
        rw [hcandidate] at hno
        cases hno
      · exact (List.mem_cons.mp hfar).resolve_left he
    obtain ⟨o, ho, hrecord, hfind⟩ := hsup.exists_outer houter
    have hfield : receiverField? t sc.owner inner = some o.field := by
      simp [receiverField?, hk', hri, he, hfind]
    exact ⟨inner, o.field, _, hreceiver hfield (hsup.outer o ho), hsup.outer o ho, hinner,
      ⟨k, ri, hk', hri, .inr ⟨he, hrecord ▸ ho⟩⟩, _, _, hsup.outer o ho⟩

/-- The receiver is declared under its name in the scope of the innermost record. -/
theorem Receiver.mem_lookup {owner inner field : NodeId} {m : Node}
    (hr : Receiver t c.scopes x owner inner field) (h : Registered c.separator t c.scopes)
    (hm : t.get? field = some m) :
    ∃ s, c.scopes.scopeOf? inner = some s ∧ s ∈ t.enclosingScopes c.scopes x ∧
      field ∈ c.scopes.lookup s m.name := by
  obtain ⟨n, r, hn, hp, hfield⟩ := hr.member
  have hinner := List.find?_some hr.innermost
  rw [Bool.and_eq_true, Option.isSome_iff_exists] at hinner
  obtain ⟨-, s, hs⟩ := hinner
  have himplicit : field ∈ r.implicitFields := by
    rcases hfield with ⟨-, hthis⟩ | ⟨-, houter⟩
    · exact List.mem_append_left _ (by simp [hthis])
    · exact List.mem_append_right _ (List.mem_map_of_mem houter)
  obtain ⟨m', hm', he⟩ := h.implicit hn hp hs himplicit
  rw [hm] at hm'
  cases hm'
  have hinner := List.mem_of_find?_eq_some hr.innermost
  exact ⟨s, hs, mem_enclosingScopes.mpr ⟨inner, hinner, hs⟩, mem_lookup_iff.mpr he⟩

/-- There is one receiver for a record. -/
theorem Receiver.unique {owner inner inner' field field' : NodeId} (ht : t.WellFormed)
    (h : Registered c.separator t c.scopes) (hr : Receiver t c.scopes x owner inner field)
    (hr' : Receiver t c.scopes x owner inner' field') : inner = inner' ∧ field = field' := by
  obtain rfl := Option.some.inj (hr.innermost.symm.trans hr'.innermost)
  refine ⟨rfl, ?_⟩
  obtain ⟨n, r, hn, hp, hfield⟩ := hr.member
  obtain ⟨n', r', hn', hp', hfield'⟩ := hr'.member
  rw [hn] at hn'
  cases hn'
  rw [hp] at hp'
  cases hp'
  rcases hfield with ⟨heq, hthis⟩ | ⟨hne, houter⟩
  · rcases hfield' with ⟨-, hthis'⟩ | ⟨hne', -⟩
    · exact Option.some.inj (hthis.symm.trans hthis')
    · exact absurd heq hne'
  · rcases hfield' with ⟨heq', -⟩ | ⟨-, houter'⟩
    · exact absurd heq' hne
    · have hinner := List.find?_some hr.innermost
      rw [Bool.and_eq_true, Option.isSome_iff_exists] at hinner
      obtain ⟨-, s, hs⟩ := hinner
      have hnodup : (r.implicitOuter.map OuterInstance.record).Nodup := by
        rw [(h.supplied hn hp hs).records]
        exact (List.nodup_cons.mp (ht.lineage_ancestors hn).nodup).2.filter _
      exact congrArg OuterInstance.field (List.inj_on_of_nodup_map hnodup houter houter' rfl)

/-- Binding leaves receivers as they are. -/
theorem Receiver.mono {T : Tree} {S : ScopeTree} {owner inner field : NodeId} {n : Node}
    (hr : Receiver t S x owner inner field) (ht : t.WellFormed) (hn : t.get? x = some n)
    (hext : t.Extends T) (hsame : t.SameDeclarations T) : Receiver T S x owner inner field := by
  constructor
  case innermost =>
    rw [hext.ancestors_eq ht hn, ← hr.innermost]
    refine List.find?_congr fun a ha => ?_
    obtain ⟨m, hm⟩ := ht.exists_of_mem_ancestors ha
    have hkind : (T.kind? a == some .recordDecl) = (t.kind? a == some .recordDecl) := by
      rw [Bool.eq_iff_iff, beq_iff_eq, beq_iff_eq]
      exact hext.kind?_recordDecl_iff hm
    rw [hkind]
  case member =>
    obtain ⟨k, r, hk, hp, hfield⟩ := hr.member
    exact ⟨k, r, (hsame (by rw [Node.kind, hp]; rfl)).mpr hk, hp, hfield⟩
  case node =>
    obtain ⟨name, typeName, hm⟩ := hr.node
    exact ⟨name, typeName, (hsame rfl).mpr hm⟩

/-- A name is written out if it is a value that its level binds to a field of an instance, and the access is
through the receiver for the record of that level. -/
theorem written?_eq_some_iff (h : Registered c.separator t c.scopes) {w : ImplicitAccess} :
    written? c t name scope role = some w ↔
      role = .value ∧ lexical c t name scope role = .single w.field ∧
        (t.get? w.field).any (·.payload.isInstanceField) = true ∧
        ∃ s sc, (s, sc) ∈ c.scopes.ancestors scope ∧ sc.kind = .record ∧ w.field ∈ c.scopes.lookup s name ∧
          receiver? c t sc.owner scope = some (w.name, w.base) := by
  constructor
  · intro hw
    have hlexical := lexical_of_written hw
    simp only [written?, Option.bind_eq_bind, Option.bind_eq_some_iff, Option.pure_def,
      Option.some.injEq] at hw
    obtain ⟨level, hlevel, field, hfield, p, hp, rfl⟩ := hw
    rw [instanceField?] at hfield
    split at hfield
    case isFalse => cases hfield
    case isTrue hplace =>
      obtain ⟨hsingle, hinstance⟩ := Option.filter_eq_some_iff.mp hfield
      obtain ⟨s, hs, hmem⟩ := mem_lookup_of_candidates hlevel (d := field) <|
        AmbiguityPolicy.mem_of_mem_candidates_apply (p := c.policy)
          (by simp [Resolution.single?_eq_some.mp hsingle, Resolution.candidates])
      exact ⟨hplace.2, hlexical, hinstance, s, level.scope, hs, hplace.1, hmem, hp⟩
  · rintro ⟨rfl, hlexical, hinstance, s, sc, hs, hk, hmem, hreceiver⟩
    rw [lexical] at hlexical
    cases hlevel : Level.find? t c.scopes scope name .value with
    | none => simp [hlevel] at hlexical
    | some level =>
      simp only [hlevel] at hlexical
      -- The field is declared once, so the level is the one of its scope.
      obtain ⟨s', hs', hmem'⟩ := mem_lookup_of_candidates hlevel (d := w.field) <|
        AmbiguityPolicy.mem_of_mem_candidates_apply (p := c.policy)
          (by simp [hlexical, Resolution.candidates])
      obtain ⟨rfl, -⟩ := h.lookup_unique hmem hmem'
      have hscope : level.scope = sc := by
        have hget := Nested.get?_of_mem_climb hs
        rw [Nested.get?_of_mem_climb hs'] at hget
        exact Option.some.inj hget
      have hfield : instanceField? t level .value (c.policy.apply level.candidates) = some w.field := by
        rw [instanceField?, if_pos ⟨hscope ▸ hk, rfl⟩, hlexical]
        simp [Resolution.single?, Option.filter, hinstance]
      simp [written?, hlevel, hfield, hscope, hreceiver]

/-- The base that a name is written out to is the receiver for the record that declares the field. -/
theorem receiver_of_written (h : Registered c.separator t c.scopes) (ht : t.WellFormed)
    (hx : t.enclosingScope? c.scopes x = some scope) {w : ImplicitAccess}
    (hw : written? c t name scope role = some w) :
    ∃ s sc inner m, c.scopes.get? s = some sc ∧ w.field ∈ c.scopes.lookup s name ∧
      t.get? w.base = some m ∧ m.name = w.name ∧ Receiver t c.scopes x sc.owner inner w.base := by
  obtain ⟨-, -, -, s, sc, hs, hk, hmem, hr⟩ := (written?_eq_some_iff h).mp hw
  obtain ⟨inner, field, m, hr', hm, hreceiver⟩ := exists_receiver h ht hx hs hk
  obtain ⟨hname, rfl⟩ : m.name = w.name ∧ field = w.base := by
    rw [hr, Option.some.injEq, Prod.mk.injEq] at hr'
    exact ⟨hr'.1.symm, hr'.2.symm⟩
  exact ⟨s, sc, inner, m, Nested.get?_of_mem_climb hs, hmem, hm, hname, hreceiver⟩

end NameResolution.Binding
