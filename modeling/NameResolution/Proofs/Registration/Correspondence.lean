import NameResolution.Proofs.Registration.Matching
import NameResolution.Proofs.Scope.Matching

/-!
# Scopes of trees that match

Registered over trees that match, with distinct names, the scope trees match, too: `RegisteredAlike.scopes_matches`.
The order in which scopes are opened and names are declared, and which of the records is listed first, makes no
difference.
-/
namespace NameResolution
open Registration

/-- The scope that is opened by the node that matches the owner of `s`. -/
def ScopeTree.matchingScope (S S' : ScopeTree) (g : NodeId → NodeId) (s : ScopeId) : ScopeId :=
  (((S.get? s).map Scope.owner).bind fun owner => S'.scopeOf? (g owner)).getD default

namespace Tree
open ScopeTree

variable {config : Config} {t t' : Tree} {f g : NodeId → NodeId} {d x y root : NodeId} {n : Node} {name q : String}
  {s : ScopeId} {sc : Scope} {p p' : Registration.Progress}

/-- The records of a unit that nest in it have different qualified names. -/
def DistinctRecords (separator : String) (t : Tree) (root : NodeId) : Prop :=
  ∀ {x y}, t.Nests root x → t.Nests root y → t.kind? x = some .recordDecl → t.kind? y = some .recordDecl →
    t.qualifiedName separator x = t.qualifiedName separator y → x = y

namespace RegistersIn

/-- Only records that were entered are listed. -/
theorem nests_of_named (h : Registers config t root p) (hd : (q, d) ∈ p.scopes.records) : t.Nests root d := by
  rw [← h.proper.enter_mem_iff h.root_eq]
  obtain ⟨k, hk, -, -⟩ := h.proper.root_parent h.root_eq
  refine Walked.induction (I := fun done r => ∀ e ∈ r.scopes.records, .enter e.2 ∈ done) h.proper h.language hk
    (List.append_nil _).symm h.registration (fun e he => absurd he (Array.not_mem_empty e)) ?_ ?_ _ hd
  · exact fun hnamed e he => List.mem_append_left _ (hnamed e he)
  · intro done rest id n r r' _ _ _ he hnamed
    obtain ⟨r₁, inner, hd, ho⟩ := he.effect
    have hnamed₁ : ∀ e ∈ r₁.scopes.records, .enter e.2 ∈ done ++ [.enter id] := by
      have hsame : r₁.scopes.records = r.scopes.records := by
        cases hd with
        | skipped | dropped => rfl
        | entered =>
          unfold ScopeTree.declare
          split <;> rfl
      rw [hsame]
      exact fun e he => List.mem_append_left _ (hnamed e he)
    cases ho with
    | transparent | plain => exact hnamed₁
    | record =>
      intro e he
      rcases Array.mem_push.mp he with he | rfl
      · exact hnamed₁ e he
      · simp

/-- The records that are listed, and the names that they are listed under. -/
theorem mem_records_iff (h : Registers config t root p) :
    (q, d) ∈ p.scopes.records ↔
      t.Nests root d ∧ t.kind? d = some .recordDecl ∧ q = t.qualifiedName config.separator d := by
  have hwf := h.proper.toWellFormed
  have hw := h.walked
  obtain ⟨k, hk, -, -⟩ := hwf.root_parent h.root_eq
  constructor
  · intro hd
    have hnests := h.nests_of_named hd
    obtain ⟨n, hn⟩ := exists_of_enter_mem hwf hk ((h.proper.enter_mem_iff h.root_eq).mpr hnests)
    obtain ⟨hkind, hq⟩ := h.registered.registered.named hd
    exact ⟨hnests, (hw.toExtends.kind?_recordDecl_iff hn).mp hkind, hq.trans (hw.toExtends.qualifiedName_eq hwf _ hn)⟩
  · rintro ⟨hnests, hkind, rfl⟩
    obtain ⟨n, hn, hk⟩ := Option.map_eq_some_iff.mp hkind
    obtain ⟨r, hr⟩ := Node.exists_record hk
    have hopens : n.payload.opens? = some .record := by rw [hr]; rfl
    obtain ⟨s, hs⟩ := Option.isSome_iff_exists.mp
      (hw.scope_opened ((h.proper.enter_mem_iff h.root_eq).mpr hnests) hn hopens)
    obtain ⟨sc, hsc, rfl⟩ := get?_of_scopeOf? hs
    obtain ⟨n', hn', hopens'⟩ := hw.grounded.owner hsc
    obtain ⟨m, hm, hb⟩ := hw.toExtends.node hn
    rw [hn'] at hm
    cases hm
    rw [hb.payload.opens?_eq, hopens] at hopens'
    have hlisted := h.registered.registered.listed hsc (Option.some.inj hopens').symm
    rwa [hw.toExtends.qualifiedName_eq hwf _ hn] at hlisted

/-- If qualified names are distinct, it does not matter which record is listed first. -/
theorem recordNamed?_eq_some_iff (h : Registers config t root p) (hrecords : t.DistinctRecords config.separator root) :
    p.scopes.recordNamed? q = some d ↔ (q, d) ∈ p.scopes.records := by
  constructor
  · intro hd
    obtain ⟨e, he, rfl⟩ := Option.map_eq_some_iff.mp hd
    obtain rfl : e.1 = q := by simpa using List.find?_some he
    exact Array.mem_toList_iff.mp (List.mem_of_find?_eq_some he)
  · intro hd
    have hsome : (p.scopes.records.toList.find? (·.1 == q)).isSome :=
      List.find?_isSome.mpr ⟨_, Array.mem_toList_iff.mpr hd, beq_self_eq_true _⟩
    obtain ⟨⟨q', d'⟩, he⟩ := Option.isSome_iff_exists.mp hsome
    obtain rfl : q' = q := by simpa using List.find?_some he
    obtain ⟨hx, hxk, hxq⟩ := h.mem_records_iff.mp (Array.mem_toList_iff.mp (List.mem_of_find?_eq_some he))
    obtain ⟨hy, hyk, hyq⟩ := h.mem_records_iff.mp hd
    rw [recordNamed?, he, Option.map_some, hrecords hx hy hxk hyk (hxq.symm.trans hyq)]

/-- If nothing in a tree points nowhere, nothing in the registered tree does. -/
theorem closed (h : Registers config t root p) (hclosed : t.Closed) : p.tree.Closed := by
  have hext := h.walked.toExtends
  have hwf := h.walked.proper.toWellFormed
  intro y k hk z hz
  cases hy : t.get? y with
  | some n =>
    have hlive : ∀ {z}, z ∈ n.ids → ∃ m, p.tree.get? z = some m := by
      intro z hz
      obtain ⟨m, hm⟩ := hclosed hy z hz
      obtain ⟨m', hm', -⟩ := hext.node hm
      exact ⟨m', hm'⟩
    rcases h.get?_cases hy with ⟨hsame, -⟩ | ⟨r, r', -, -, hnode, -, -, hsup⟩
    · rw [hk] at hsame
      cases hsame
      exact hlive hz
    · rw [hk] at hnode
      cases hnode
      have houter : ∀ {o}, o ∈ p.tree.enclosingRecords y → ∃ m, p.tree.get? o = some m :=
        fun ho => hwf.exists_of_mem_ancestors (List.mem_of_mem_filter ho)
      simp only [Node.ids, Payload.ids, List.mem_cons, List.mem_append] at hz
      rcases hz with rfl | hz | (hz | hz) | hz
      · exact hlive (by simp [Node.ids])
      · exact hlive (by simp [Node.ids, hz])
      · obtain ⟨m, hm, -⟩ := hwf.parent_of_child hk hz
        exact ⟨m, hm⟩
      · rw [hsup.enclosing] at hz
        exact houter (List.mem_of_head? (Option.mem_toList.mp hz))
      · exact houter (hsup.records ▸ hz)
  | none =>
    obtain ⟨x, m, r, -, hnode, hf, -, hsup, -⟩ := h.exists_record_of_new hk hy
    obtain ⟨name, typeName, himplicit⟩ := hsup.implicit hf
    rw [hk] at himplicit
    cases himplicit
    have hz' : z = y ∨ z = x := by simpa [Node.ids, Payload.ids, implicitNode] using hz
    rcases hz' with rfl | rfl
    · exact ⟨_, hk⟩
    · exact ⟨_, hnode⟩

end RegistersIn

/-- Whether qualified names are distinct does not depend on the numbering. -/
theorem Matches.distinctRecords (hm : t.Matches f t') (ht : t.WellFormed) (hroot : t.get? root = some n)
    {separator : String} (hd : t.DistinctRecords separator root) : t'.DistinctRecords separator (f root) := by
  intro x' y' hx' hy' hkx hky hq
  obtain ⟨x, m, hx, hmx, rfl⟩ := hm.exists_nests ht hroot hx'
  obtain ⟨y, k, hy, hky', rfl⟩ := hm.exists_nests ht hroot hy'
  rw [hm.qualifiedName_eq ht _ hmx, hm.qualifiedName_eq ht _ hky'] at hq
  rw [hd hx hy (hm.kind?_eq hmx ▸ hkx) (hm.kind?_eq hky' ▸ hky) hq]

/-- A list that holds at most one element is known from what it holds. -/
theorem eq_of_mem_iff {α : Type} {l l' : List α} (hl : l.Nodup) (hl' : l'.Nodup) (hone : ∀ x ∈ l', ∀ y ∈ l', x = y)
    (hmem : ∀ x, x ∈ l ↔ x ∈ l') : l = l' := by
  have hperm : l.Perm l' := (List.perm_ext_iff_of_nodup hl hl').mpr hmem
  match l', hl', hone with
  | [], _, _ => exact hperm.eq_nil
  | [a], _, _ => exact List.perm_singleton.mp hperm
  | a :: b :: _, hnodup, hone => simp [hone a (by simp) b (by simp)] at hnodup

/-- Two trees that match have been registered without duplicates, and match still. -/
structure RegisteredAlike (config : Config) (root : NodeId) (f g : NodeId → NodeId) (t t' : Tree)
    (p p' : Registration.Progress) : Prop where
  before : t.Matches f t'
  after : p.tree.Matches g p'.tree
  kept : ∀ {x n}, t.get? x = some n → g x = f x
  here : Registers config t root p
  there : Registers config t' (f root) p'
  undoubled : p.duplicates = #[]
  undoubled' : p'.duplicates = #[]

namespace RegisteredAlike

section
variable (h : RegisteredAlike config root f g t t' p p')
include h

/-- The same nodes have scopes. -/
theorem isSome_scopeOf?_eq (hn : p.tree.get? x = some n) :
    (p'.scopes.scopeOf? (g x)).isSome = (p.scopes.scopeOf? x).isSome := by
  have hwf := h.here.proper.toWellFormed
  obtain ⟨k, hk, -, -⟩ := hwf.root_parent h.here.root_eq
  obtain ⟨n', hn', hmatch⟩ := h.after.node hn
  cases hx : t.get? x with
  | some m =>
    obtain ⟨m', hm', hmm⟩ := h.before.node hx
    rw [h.kept hx, Bool.eq_iff_iff, h.here.walked.isSome_scopeOf?_iff hx, h.there.walked.isSome_scopeOf?_iff hm',
      h.here.proper.enter_mem_iff h.here.root_eq, h.there.proper.enter_mem_iff h.there.root_eq,
      h.before.nests_iff hwf hk hx, hmm.payload.opens?_eq]
  | none =>
    -- What was added are fields, which have no scope.
    obtain ⟨_, _, r, -, -, hf, -, hsup, -⟩ := h.here.exists_record_of_new hn hx
    obtain ⟨name, typeName, hnode⟩ := hsup.implicit hf
    rw [hn] at hnode
    cases hnode
    rw [h.here.walked.grounded.scopeOf?_eq_none hn rfl,
      h.there.walked.grounded.scopeOf?_eq_none hn' hmatch.payload.opens?_eq]

/-- Only nodes that were there have scopes. -/
theorem exists_of_scopeOf? (hs : p.scopes.scopeOf? x = some s) : ∃ n, t.get? x = some n := by
  obtain ⟨sc, hsc, rfl⟩ := get?_of_scopeOf? hs
  obtain ⟨k, hk, -, -⟩ := h.here.proper.root_parent h.here.root_eq
  exact exists_of_enter_mem h.here.proper.toWellFormed hk (h.here.walked.owner_entered hsc)

/-- What is declared in a scope matches what is declared in the scope of the node that matches its owner. -/
theorem mem_lookup_iff {s' : ScopeId} (hs : p.scopes.scopeOf? x = some s) (hs' : p'.scopes.scopeOf? (g x) = some s') :
    y ∈ p'.scopes.lookup s' name ↔ y ∈ (p.scopes.lookup s name).map g := by
  have hwf := h.here.proper.toWellFormed
  obtain ⟨k, hk, -, -⟩ := hwf.root_parent h.here.root_eq
  obtain ⟨n, hn⟩ := h.exists_of_scopeOf? hs
  rw [List.mem_map, h.there.mem_lookup_iff h.undoubled' hs']
  simp only [h.here.mem_lookup_iff h.undoubled hs]
  have hpayload : ∀ {m m' r'}, p.tree.get? x = some m → p'.tree.get? (g x) = some m' → m'.payload = .recordDecl r' →
      ∃ r, m.payload = .recordDecl r ∧ r'.implicitFields = r.implicitFields.map g := by
    intro m m' r' hm hm' hr'
    have hmatch := h.after.matches_of_get? hm hm'
    obtain ⟨r, hr⟩ := Node.exists_record (hmatch.kind_eq.symm.trans (congrArg Payload.kind hr'))
    have hpayload := hmatch.payload
    rw [hr] at hpayload
    obtain ⟨ms, -, hmap⟩ := hpayload.of_record
    cases hr'.symm.trans hmap
    exact ⟨r, hr, by simp [Record.implicitFields, Record.map, Option.toList_map, Function.comp_def]⟩
  constructor
  · rintro (hy | ⟨m', r', k', hm', hr', hf', hk', rfl⟩)
    · rw [h.kept hn] at hy
      obtain ⟨owner, z, hz, howner, rfl⟩ := h.before.exists_declaresAt hwf hk hy
      obtain ⟨_, hm, -⟩ := hz.node
      obtain ⟨mo, hmo⟩ := hwf.exists_of_mem_ancestors (mem_ancestors_of_opener? hz.opener)
      obtain rfl := h.before.inj hmo hn howner
      exact ⟨z, .inl hz, h.kept hm⟩
    · obtain ⟨m, hm, -⟩ := h.here.walked.toExtends.node hn
      obtain ⟨r, hr, hfields⟩ := hpayload hm hm' hr'
      rw [hfields] at hf'
      obtain ⟨z, hz, rfl⟩ := List.mem_map.mp hf'
      obtain ⟨kz, hkz, -⟩ := h.here.walked.proper.parent_of_child hm (Node.mem_children_of_implicitFields hr hz)
      exact ⟨z, .inr ⟨m, r, kz, hm, hr, hz, hkz, (h.after.matches_of_get? hkz hk').name.symm⟩, rfl⟩
  · rintro ⟨z, hz | ⟨m, r, kz, hm, hr, hz, hkz, rfl⟩, rfl⟩
    · obtain ⟨_, hm, -⟩ := hz.node
      rw [h.kept hn, h.kept hm]
      exact .inl (h.before.declaresAt hwf hz)
    · obtain ⟨m', hm', hmatch⟩ := h.after.node hm
      obtain ⟨r', hr'⟩ := Node.exists_record (hmatch.kind_eq.trans (congrArg Payload.kind hr))
      obtain ⟨kz', hkz', hmatchz⟩ := h.after.node hkz
      obtain ⟨r₁, hr₁, hfields⟩ := hpayload hm hm' hr'
      cases hr.symm.trans hr₁
      exact .inr ⟨m', r', kz', hm', hr', hfields ▸ List.mem_map_of_mem hz, hkz', hmatchz.name⟩

/-- The scope that is opened by the node that matches the owner. -/
theorem exists_matchingScope (hs : p.scopes.get? s = some sc) :
    p'.scopes.scopeOf? (g sc.owner) = some (p.scopes.matchingScope p'.scopes g s) := by
  obtain ⟨n, hn, -⟩ := h.here.walked.grounded.owner hs
  have hsome : (p'.scopes.scopeOf? (g sc.owner)).isSome = true := by
    rw [h.isSome_scopeOf?_eq hn, h.here.registered.registered.opened hs, Option.isSome_some]
  obtain ⟨s', hs'⟩ := Option.isSome_iff_exists.mp hsome
  rw [ScopeTree.matchingScope, hs, Option.map_some, Option.bind_some, hs', Option.getD_some]

theorem scopeOf?_eq_map (hn : p.tree.get? x = some n) :
    p'.scopes.scopeOf? (g x) = (p.scopes.scopeOf? x).map (p.scopes.matchingScope p'.scopes g) := by
  cases hs : p.scopes.scopeOf? x with
  | none =>
    have hnone := h.isSome_scopeOf?_eq hn
    rw [hs, Option.isSome_none, Option.isSome_eq_false_iff, Option.isNone_iff_eq_none] at hnone
    rw [hnone, Option.map_none]
  | some s =>
    obtain ⟨sc, hsc, rfl⟩ := get?_of_scopeOf? hs
    rw [h.exists_matchingScope hsc, Option.map_some]

theorem get?_matchingScope (hs : p.scopes.get? s = some sc) :
    p'.scopes.get? (p.scopes.matchingScope p'.scopes g s) = some (sc.map g (p.scopes.matchingScope p'.scopes g)) := by
  obtain ⟨⟨kind, owner, parent⟩, hsc', howner⟩ := get?_of_scopeOf? (h.exists_matchingScope hs)
  obtain rfl : owner = g sc.owner := howner
  obtain ⟨n, hn, hopens⟩ := h.here.walked.grounded.owner hs
  obtain ⟨n', hn', hopens'⟩ := h.there.walked.grounded.owner hsc'
  have hkind : kind = sc.kind := by
    have hmatch := h.after.matches_of_get? hn hn'
    rw [hmatch.payload.opens?_eq, hopens] at hopens'
    exact (Option.some.inj hopens').symm
  have hparent : parent = sc.parent.map (p.scopes.matchingScope p'.scopes g) := by
    rw [h.here.registered.registered.parent hs,
      ← enclosingScope?_eq_map h.scopeOf?_eq_map h.after h.here.walked.proper.toWellFormed hn]
    exact h.there.registered.registered.parent hsc'
  rw [hsc', hkind, hparent]
  rfl

/-- Registered over trees that match, with distinct names, the scope trees match, too. -/
theorem scopes_matches (hsingle : ∀ {s name x y}, x ∈ p.scopes.lookup s name → y ∈ p.scopes.lookup s name → x = y)
    (hrecords : t.DistinctRecords config.separator root) :
    p.scopes.Matches g (p.scopes.matchingScope p'.scopes g) p.tree p'.scopes := by
  have hwf := h.here.proper.toWellFormed
  obtain ⟨k, hk, -, -⟩ := hwf.root_parent h.here.root_eq
  have hregistered := h.here.registered.registered
  have hregistered' := h.there.registered.registered
  refine ⟨h.get?_matchingScope, h.scopeOf?_eq_map, fun hs => ?_, fun {s sc} hs name => ?_, fun q => ?_⟩
  · exact climb_eq_map h.get?_matchingScope hregistered.earlier hregistered'.earlier hs
      (ScopeTree.lt_size_of_get? hs) (ScopeTree.lt_size_of_get? (h.get?_matchingScope hs))
  · refine eq_of_mem_iff (hregistered'.nodup_lookup _ _) ?_ ?_ fun y =>
      h.mem_lookup_iff (hregistered.opened hs) (h.exists_matchingScope hs)
    · refine (List.nodup_map_iff_inj_on (hregistered.nodup_lookup s name)).mpr fun x hx y hy _ => hsingle hx hy
    · intro x' hx' y' hy'
      obtain ⟨x, hx, rfl⟩ := List.mem_map.mp hx'
      obtain ⟨y, hy, rfl⟩ := List.mem_map.mp hy'
      rw [hsingle hx hy]
  · refine Option.ext fun d' => ?_
    rw [h.there.recordNamed?_eq_some_iff (h.before.distinctRecords hwf hk hrecords), h.there.mem_records_iff,
      Option.map_eq_some_iff]
    simp only [h.here.recordNamed?_eq_some_iff hrecords, h.here.mem_records_iff]
    constructor
    · rintro ⟨hnests, hkind, hq⟩
      obtain ⟨d, n, hd, hn, rfl⟩ := h.before.exists_nests hwf hk hnests
      exact ⟨d, ⟨hd, h.before.kind?_eq hn ▸ hkind, hq.trans (h.before.qualifiedName_eq hwf _ hn)⟩, h.kept hn⟩
    · rintro ⟨d, ⟨hd, hkind, hq⟩, rfl⟩
      obtain ⟨n, hn⟩ := exists_of_enter_mem hwf hk ((h.here.proper.enter_mem_iff h.here.root_eq).mpr hd)
      rw [h.kept hn]
      exact ⟨h.before.nests hd, (h.before.kind?_eq hn).trans hkind, hq.trans (h.before.qualifiedName_eq hwf _ hn).symm⟩

end

end RegisteredAlike

end Tree
end NameResolution
