import NameResolution.Proofs.Binding.Policies
import NameResolution.Proofs.Registration.Renamed

/-!
# Look-ups with a local under another name

Where a variable or parameter goes by a fresh name, the new name finds it and nothing else, and every other name finds
what it found before, unless that was the declaration. The declaration is the only value of its name in its
scope, so that a value never looks past it; and a callee that finds it has found nothing better anywhere.
-/
namespace NameResolution

namespace Tree
variable {t : Tree} {role : Role} {ds es : List NodeId} {d : NodeId}

/-- The kinds that a reference is looking for, the best sort or not. -/
def isSuited (t : Tree) (role : Role) (d : NodeId) : Bool :=
  match role with
  | .value => t.isOneOf [.variableDecl, .parameterDecl, .fieldDecl, .recordDecl] d
  | .callee => t.isOneOf [.methodDecl, .functionDecl] d

theorem suited_eq_nil_iff : t.suited role ds = [] ↔ ∀ d ∈ ds, t.isSuited role d = false := by
  cases role with
  | callee => simp [suited, isSuited, List.filter_eq_nil_iff]
  | value =>
    have hsplit : ∀ d, t.isSuited .value d =
        (t.isOneOf [.variableDecl, .parameterDecl, .fieldDecl] d || t.isOneOf [.recordDecl] d) := by
      intro d
      simp only [isSuited, isOneOf]
      cases t.kind? d with
      | none => rfl
      | some k => cases k <;> rfl
    simp only [suited, hsplit, Bool.or_eq_false_iff]
    split
    case h_1 hnone =>
      rw [List.filter_eq_nil_iff] at hnone ⊢
      simp only [Bool.not_eq_true] at hnone ⊢
      exact ⟨fun h d hd => ⟨hnone d hd, h d hd⟩, fun h d hd => (h d hd).2⟩
    case h_2 hsome =>
      refine iff_of_false hsome fun h => hsome ?_
      rw [List.filter_eq_nil_iff]
      exact fun d hd => by rw [(h d hd).1]; exact Bool.false_ne_true

/-- Fewer candidates suit no more. -/
theorem suited_eq_nil_of_subset (h : es ⊆ ds) (hds : t.suited role ds = []) : t.suited role es = [] :=
  suited_eq_nil_iff.mpr fun d hd => suited_eq_nil_iff.mp hds d (h hd)

theorem preferred_singleton {k : NodeKind} (hd : t.kind? d = some k) (role : Role) : t.preferred role [d] = [d] := by
  simp [preferred, hd]

/-- Without one that is not callable, a callee has the same candidates. -/
theorem suited_callee_filter (hd : t.isSuited .callee d = false) :
    t.suited .callee (ds.filter (· ≠ d)) = t.suited .callee ds := by
  rw [suited, suited, List.filter_filter]
  refine List.filter_congr fun x _ => ?_
  by_cases hx : x = d
  · subst hx
    rw [isSuited] at hd
    rw [hd, Bool.false_and]
  · simp [hx]

end Tree

/-- The first of a list is still the first if fewer others come into question. -/
theorem find?_of_imp {α : Type} {p q : α → Bool} {xs : List α} {a : α} (h : ∀ x ∈ xs, q x = true → p x = true)
    (ha : xs.find? p = some a) (hq : q a = true) : xs.find? q = some a := by
  obtain ⟨-, nearer, further, rfl, hnearer⟩ := List.find?_eq_some_iff_append.mp ha
  refine List.find?_eq_some_iff_append.mpr ⟨hq, nearer, further, rfl, fun x hx => ?_⟩
  rw [Bool.not_eq_true', ← Bool.not_eq_true]
  intro hqx
  simpa [h x (List.mem_append_left _ hx) hqx] using hnearer x hx

namespace Registration.HasLocal
open NameResolution.Tree ScopeTree

variable {separator : String} {t : Tree} {S : ScopeTree} {d e : NodeId} {s q scope : ScopeId}
  {n n' name : String} {role : Role}

theorem not_implicit (h : HasLocal t S d s n name) : ¬ IsImplicitField t d := by
  rintro ⟨m, f, hm, hf, -⟩
  refine h.kind?_ne ?_
  rw [kind?, hm, Option.map_some, Node.kind, hf]
  rfl

theorem isOneOf_value (h : HasLocal t S d s n name) :
    t.isOneOf [.variableDecl, .parameterDecl, .fieldDecl] d = true := by
  obtain ⟨k, hk, hlocal⟩ := h.isLocal
  rw [isOneOf, kind?, hk, Option.map_some, Option.any_some]
  rcases hlocal with hk | hk <;> rw [hk] <;> rfl

theorem isSuited_callee (h : HasLocal t S d s n name) : t.isSuited .callee d = false := by
  obtain ⟨k, hk, hlocal⟩ := h.isLocal
  rw [isSuited, isOneOf, kind?, hk, Option.map_some, Option.any_some]
  rcases hlocal with hk | hk <;> rw [hk] <;> rfl

/-- Whatever else claims the name in the scope is the declaration itself. -/
theorem eq_of_claimsName (h : HasLocal t S d s n name) (hreg : Registered separator t S) (hd : d ∈ S.lookup q n')
    (he : e ∈ S.lookup q n') (hclaims : ClaimsName t e) : e = d :=
  congrArg Entry.declaration (hreg.sole (mem_lookup_iff.mp hd) (mem_lookup_iff.mp he) rfl rfl h.claimsName
    h.not_implicit hclaims)

/-- A list of candidates that holds nothing but the declaration. -/
theorem eq_singleton (hreg : Registered separator t S) {ds : List NodeId}
    (hds : ds.Sublist (S.lookup q n')) (hmem : d ∈ ds) (hall : ∀ e ∈ ds, e = d) : ds = [d] := by
  refine List.perm_singleton.mp ((List.perm_ext_iff_of_nodup ((hreg.nodup_lookup q n').sublist hds)
    (List.nodup_singleton d)).mpr fun e => ?_)
  rw [List.mem_singleton]
  exact ⟨hall e, fun he => he ▸ hmem⟩

/-- For a value the declaration is all there is in its scope. -/
theorem suited_value (h : HasLocal t S d s n name) (hreg : Registered separator t S) (hd : d ∈ S.lookup q n') :
    t.suited .value (S.lookup q n') = [d] := by
  rw [Tree.suited_value hd h.isOneOf_value]
  refine eq_singleton hreg List.filter_sublist (List.mem_filter.mpr ⟨hd, h.isOneOf_value⟩) fun e he => ?_
  obtain ⟨he, hone⟩ := List.mem_filter.mp he
  refine h.eq_of_claimsName hreg hd he ?_
  obtain ⟨k, hk, hone⟩ := (Option.any_eq_true ..).mp hone
  rw [ClaimsName, hk, Option.any_some]
  cases k <;> first | rfl | cases hone

/-- If nothing in its scope is callable, the declaration is all there is. -/
theorem lookup_eq_singleton (h : HasLocal t S d s n name) (hreg : Registered separator t S)
    (hd : d ∈ S.lookup q n') (hno : t.suited .callee (S.lookup q n') = []) : S.lookup q n' = [d] := by
  refine eq_singleton hreg (List.Sublist.refl _) hd fun e he => h.eq_of_claimsName hreg hd he ?_
  obtain ⟨k, hk, hdecl⟩ := hreg.grounded.areDeclarations q n' e he
  have hunsuited := suited_eq_nil_iff.mp hno e he
  rw [isSuited, isOneOf, hk, Option.any_some] at hunsuited
  rw [ClaimsName, hk, Option.any_some]
  cases k <;> first | rfl | exact absurd hunsuited (by decide) | cases hdecl

/-- Under an old name the scopes hold what they held, but for the declaration. -/
theorem lookup_rename_subset (hn : n' ≠ name) : (S.rename d name).lookup q n' ⊆ S.lookup q n' := by
  rw [lookup_rename_of_ne hn]
  exact List.filter_sublist.subset

theorem areDeclarations_rename (hreg : Registered separator t S) (hn : n' ≠ name) (q : ScopeId) :
    t.AreDeclarations ((S.rename d name).lookup q n') :=
  fun e he => hreg.grounded.areDeclarations q n' e (lookup_rename_subset hn he)

/-- Where a reference finds what it is looking for, and that is not the declaration, it still finds it. -/
theorem suited_lookup_rename (h : HasLocal t S d s n name) (hreg : Registered separator t S) (hn : n' ≠ name)
    (hne : t.suited role (S.lookup q n') ≠ [d]) :
    t.suited role ((S.rename d name).lookup q n') = t.suited role (S.lookup q n') := by
  by_cases hd : d ∈ S.lookup q n'
  · cases role with
    | value => exact absurd (h.suited_value hreg hd) hne
    | callee => rw [lookup_rename_of_ne hn, suited_callee_filter h.isSuited_callee]
  · rw [lookup_rename_of_not_mem hn hd]

/-- Where a reference finds nothing that it is looking for, the declaration is the whole level or no part of it. -/
theorem not_mem_lookup_of_unsuited (h : HasLocal t S d s n name) (hreg : Registered separator t S)
    (hno : t.suited role (S.lookup q n') = []) (hne : S.lookup q n' ≠ [d]) : d ∉ S.lookup q n' := by
  intro hd
  cases role with
  | value =>
    rw [h.suited_value hreg hd] at hno
    cases hno
  | callee => exact hne (h.lookup_eq_singleton hreg hd hno)

/-- A level that is not the declaration alone is found again under an old name. -/
theorem find?_rename_of_ne (h : HasLocal t S d s n name) (hreg : Registered separator t S) (hn : n' ≠ name)
    (hlevel : ∀ level, Level.find? t S scope n' role = some level → level.candidates ≠ [d]) :
    Level.find? t (S.rename d name) scope n' role = Level.find? t S scope n' role := by
  have hsub : ∀ q, (S.rename d name).lookup q n' ⊆ S.lookup q n' := fun q => lookup_rename_subset hn
  have hds := fun q => hreg.grounded.areDeclarations q n'
  have hds' := areDeclarations_rename (d := d) hreg hn
  rw [Level.find?_eq hds] at hlevel
  rw [Level.find?_eq hds, Level.find?_eq hds', ancestors_congr (scopes_rename d name S)]
  cases hsuited : (S.ancestors scope).find? fun p => t.suited role (S.lookup p.1 n') ≠ [] with
  | some p =>
    have hp : t.suited role (S.lookup p.1 n') ≠ [] := by simpa using List.find?_some hsuited
    have hsame : t.suited role ((S.rename d name).lookup p.1 n') = t.suited role (S.lookup p.1 n') := by
      refine h.suited_lookup_rename hreg hn fun hd => ?_
      refine hlevel _ (by rw [hsuited, Option.some_or, Option.map_some]) ?_
      exact (preferred_of_suited (hds p.1) hp).trans hd
    have hfind : ((S.ancestors scope).find? fun p => t.suited role ((S.rename d name).lookup p.1 n') ≠ []) = some p := by
      refine find?_of_imp (fun q _ hq => ?_) hsuited (decide_eq_true (hsame ▸ hp))
      exact decide_eq_true fun hnil => of_decide_eq_true hq (suited_eq_nil_of_subset (hsub q.1) hnil)
    rw [hfind, Option.some_or, Option.some_or, Option.map_some, Option.map_some, preferred_of_suited (hds p.1) hp,
      preferred_of_suited (hds' p.1) (hsame ▸ hp), hsame]
  | none =>
    have hno : ∀ p ∈ S.ancestors scope, t.suited role (S.lookup p.1 n') = [] := by
      intro p hp
      simpa using List.find?_eq_none.mp hsuited p hp
    have hnone : ((S.ancestors scope).find? fun p => t.suited role ((S.rename d name).lookup p.1 n') ≠ []) = none := by
      refine List.find?_eq_none.mpr fun p hp => ?_
      simp [suited_eq_nil_of_subset (hsub p.1) (hno p hp)]
    rw [hsuited, Option.none_or] at hlevel
    rw [hnone, Option.none_or, Option.none_or]
    cases hheld : (S.ancestors scope).find? fun p => S.lookup p.1 n' ≠ [] with
    | some p =>
      have hp := hno p (List.mem_of_find?_eq_some hheld)
      have hne : S.lookup p.1 n' ≠ [] := by simpa using List.find?_some hheld
      have hsame : (S.rename d name).lookup p.1 n' = S.lookup p.1 n' := by
        refine lookup_rename_of_not_mem hn (h.not_mem_lookup_of_unsuited hreg hp fun hd => ?_)
        refine hlevel _ (by rw [hheld, Option.map_some]) ?_
        exact (preferred_of_unsuited (hds p.1) hp).trans hd
      have hfind : ((S.ancestors scope).find? fun p => (S.rename d name).lookup p.1 n' ≠ []) = some p := by
        refine find?_of_imp (fun q _ hq => ?_) hheld (decide_eq_true (hsame ▸ hne))
        exact decide_eq_true fun hnil => of_decide_eq_true hq (List.eq_nil_of_subset_nil (hnil ▸ hsub q.1))
      rw [hfind, Option.map_some, Option.map_some, hsame]
    | none =>
      have hnone' : ((S.ancestors scope).find? fun p => (S.rename d name).lookup p.1 n' ≠ []) = none := by
        refine List.find?_eq_none.mpr fun p hp => ?_
        have hnil : S.lookup p.1 n' = [] := by simpa using List.find?_eq_none.mp hheld p hp
        simp [List.eq_nil_of_subset_nil (hnil ▸ hsub p.1)]
      rw [hnone', Option.map_none, Option.map_none]

/-- Under the new name a scope holds the declaration or nothing. -/
theorem lookup_rename_self (h : HasLocal t S d s n name) (hreg : Registered separator t S)
    (hne : (S.rename d name).lookup q name ≠ []) : (S.rename d name).lookup q name = [d] := by
  have hall : ∀ e ∈ (S.rename d name).lookup q name, e = d :=
    fun e he => ((mem_lookup_rename_self h.fresh).mp he).1
  obtain ⟨e, he⟩ := List.exists_mem_of_ne_nil _ hne
  have hd : d ∈ (S.rename d name).lookup q name := by rwa [hall e he] at he
  have hnodup : ((S.rename d name).lookup q name).Nodup :=
    (map_declaration_rename d name S ▸ hreg.nodup).sublist (List.filter_sublist.map _)
  refine List.perm_singleton.mp ((List.perm_ext_iff_of_nodup hnodup (List.nodup_singleton d)).mpr fun x => ?_)
  rw [List.mem_singleton]
  exact ⟨hall x, fun hx => hx ▸ hd⟩

/-- The new name is bound at the level of the declaration. -/
theorem find?_rename_self (h : HasLocal t S d s n name) (hreg : Registered separator t S) {sc : Scope}
    (hs : (s, sc) ∈ S.ancestors scope) (role : Role) :
    ∃ level, Level.find? t (S.rename d name) scope name role = some level ∧ level.candidates = [d] := by
  have hds : ∀ q, t.AreDeclarations ((S.rename d name).lookup q name) := by
    intro q e he
    obtain ⟨rfl, n, hn⟩ := (mem_lookup_rename_self h.fresh).mp he
    exact hreg.grounded.areDeclarations q n e hn
  obtain ⟨k, hk, -⟩ := hreg.grounded.areDeclarations s n d h.declared
  have hself : (S.rename d name).lookup s name ≠ [] :=
    List.ne_nil_of_mem ((mem_lookup_rename_self h.fresh).mpr ⟨rfl, n, h.declared⟩)
  have hfound : (((S.ancestors scope).find? fun p => t.suited role ((S.rename d name).lookup p.1 name) ≠ []).or
      ((S.ancestors scope).find? fun p => (S.rename d name).lookup p.1 name ≠ [])).isSome := by
    rw [Option.isSome_or, Bool.or_eq_true]
    exact .inr (List.find?_isSome.mpr ⟨(s, sc), hs, decide_eq_true hself⟩)
  obtain ⟨p, hp⟩ := Option.isSome_iff_exists.mp hfound
  have hne : (S.rename d name).lookup p.1 name ≠ [] := by
    rcases Option.or_eq_some_iff.mp hp with hp | ⟨-, hp⟩
    · have hsuited : t.suited role ((S.rename d name).lookup p.1 name) ≠ [] := by simpa using List.find?_some hp
      exact fun hnil => hsuited (by rw [hnil, suited_nil])
    · simpa using List.find?_some hp
  rw [Level.find?_eq hds, ancestors_congr (scopes_rename d name S), hp, Option.map_some]
  exact ⟨_, rfl, by rw [h.lookup_rename_self hreg hne, preferred_singleton hk]⟩

end Registration.HasLocal

namespace Binding
open NameResolution.Tree ScopeTree Registration

def Context.rename (d : NodeId) (name : String) (c : Context) : Context := { c with scopes := c.scopes.rename d name }

section
variable {c : Context} {t : Tree} {ids : NodeId → Bool} {d base : NodeId} {s scope : ScopeId} {n n' name : String}
  {role : Role} {r : Resolution}

theorem find?_rename_tree (t : Tree) (S : ScopeTree) :
    Level.find? (t.rename ids name) S scope n' role = Level.find? t S scope n' role :=
  Level.find?_congr (fun _ _ _ => kind?_rename ..) scope role

/-- A name that is not bound to the declaration keeps its level. -/
theorem find?_rename_of_lexical_ne (h : HasLocal t c.scopes d s n name) (hreg : Registered c.separator t c.scopes)
    (hn : n' ≠ name) (hne : lexical c t n' scope role ≠ .single d) :
    Level.find? (t.rename ids name) (c.rename d name).scopes scope n' role =
      Level.find? t c.scopes scope n' role := by
  refine (find?_rename_tree t _).trans (h.find?_rename_of_ne hreg hn fun level hlevel hcandidates => hne ?_)
  rw [lexical, hlevel]
  simp only [hcandidates, AmbiguityPolicy.apply_singleton]

theorem lexical_rename_of_ne (h : HasLocal t c.scopes d s n name) (hreg : Registered c.separator t c.scopes)
    (hn : n' ≠ name) (hne : lexical c t n' scope role ≠ .single d) :
    lexical (c.rename d name) (t.rename ids name) n' scope role = lexical c t n' scope role := by
  rw [lexical, find?_rename_of_lexical_ne h hreg hn hne]
  rfl

theorem receiver?_rename (hground : Grounded t c.scopes) (owner : NodeId) (scope : ScopeId) :
    receiver? (c.rename d name) (t.rename ids name) owner scope = receiver? c t owner scope := by
  have hinnermost : (c.rename d name).scopes.innermostRecord? scope = c.scopes.innermostRecord? scope :=
    innermostRecord?_congr (scopes_rename ..) scope
  rw [receiver?, receiver?, hinnermost]
  cases hinner : c.scopes.innermostRecord? scope with
  | none => rfl
  | some inner =>
    have hfield : receiverField? (t.rename ids name) owner inner = receiverField? t owner inner := by
      rw [receiverField?, receiverField?, get?_rename, Option.map_map]
      rfl
    simp only [Option.bind_eq_bind, Option.bind_some, hfield]
    cases hf : receiverField? t owner inner with
    | none => rfl
    | some f =>
      obtain ⟨field, typeName, hm⟩ := exists_of_receiverField? hground hinner hf
      simp only [Option.bind_some, name?, hm, get?_rename_of_kind ids name hm rfl]

theorem instanceField?_rename (t : Tree) (level : Level) (r : Resolution) :
    instanceField? (t.rename ids name) level role r = instanceField? t level role r := by
  have hinstance : ∀ d, ((t.rename ids name).get? d).any (·.payload.isInstanceField) =
      (t.get? d).any (·.payload.isInstanceField) := by
    intro d
    rw [get?_rename]
    cases t.get? d <;> rfl
  simp only [instanceField?, hinstance]

theorem written?_rename_of_ne (h : HasLocal t c.scopes d s n name) (hreg : Registered c.separator t c.scopes)
    (hn : n' ≠ name) (hne : lexical c t n' scope role ≠ .single d) :
    written? (c.rename d name) (t.rename ids name) n' scope role = written? c t n' scope role := by
  rw [written?, written?, find?_rename_of_lexical_ne h hreg hn hne]
  cases Level.find? t c.scopes scope n' role with
  | none => rfl
  | some level =>
    simp only [Option.bind_eq_bind, Option.bind_some, instanceField?_rename, receiver?_rename hreg.grounded]
    rfl

/-- A name that is bound to the declaration is bound to it under the new name. -/
theorem lexical_rename_self (h : HasLocal t c.scopes d s n name) (hreg : Registered c.separator t c.scopes)
    (hlexical : lexical c t n' scope role = .single d) :
    lexical (c.rename d name) (t.rename ids name) name scope role = .single d := by
  obtain ⟨sc, hs⟩ : ∃ sc, (s, sc) ∈ c.scopes.ancestors scope := by
    rcases lexical_cases c t n' scope role with hnone | ⟨s', sc, hs', heq⟩
    · rw [hlexical] at hnone
      cases hnone
    · obtain ⟨rfl, -⟩ := hreg.lookup_unique (mem_lookup_of_apply (heq.symm.trans hlexical)) h.declared
      exact ⟨sc, hs'⟩
  obtain ⟨level, hlevel, hcandidates⟩ := h.find?_rename_self hreg hs role
  have hscopes : (c.rename d name).scopes = c.scopes.rename d name := rfl
  rw [lexical, find?_rename_tree, hscopes, hlevel]
  simp only [hcandidates, AmbiguityPolicy.apply_singleton]

/-- What is bound to the declaration is not written out. -/
theorem written?_of_single {c : Context} {t : Tree} (hd : t.kind? d ≠ some .fieldDecl)
    (hlexical : lexical c t n' scope role = .single d) : written? c t n' scope role = none := by
  by_contra hne
  obtain ⟨w, hw⟩ := Option.ne_none_iff_exists'.mp hne
  have hwritten := (lexical_of_written hw).symm.trans hlexical
  simp only [written?, Option.bind_eq_bind, Option.bind_eq_some_iff, Option.pure_def, Option.some.injEq] at hw
  obtain ⟨level, -, field, hinstance, receiver, -, hfield⟩ := hw
  rw [← hfield, Resolution.single.injEq] at hwritten
  rw [instanceField?] at hinstance
  split at hinstance
  case isFalse => cases hinstance
  case isTrue =>
    obtain ⟨⟨_, _, _, _, payload⟩, hm, hp⟩ := (Option.any_eq_true ..).mp (Option.filter_eq_some_iff.mp hinstance).2
    cases payload with
    | fieldDecl f =>
      refine hd ?_
      rw [← hwritten, kind?, hm]
      rfl
    | _ => cases hp

def Progress.rename (ids : NodeId → Bool) (name : String) (q : Progress) : Progress :=
  { q with tree := q.tree.rename ids name }

/-- A name that is bound to the declaration is bound in place, as it was. -/
theorem named_rename_self {q : Progress} {x : NodeId} (h : HasLocal q.tree c.scopes d s n name)
    (hreg : Registered c.separator q.tree c.scopes) (hlexical : lexical c q.tree n' scope role = .single d) :
    named (c.rename d name) (q.rename ids name) x name scope role = (named c q x n' scope role).rename ids name := by
  have hnew : lexical (c.rename d name) (q.tree.rename ids name) name scope role = .single d :=
    lexical_rename_self h hreg hlexical
  have hwritten : written? (c.rename d name) (q.tree.rename ids name) name scope role = none :=
    written?_of_single (by rw [kind?_rename]; exact h.kind?_ne) hnew
  simp only [named, Progress.rename, written?_of_single h.kind?_ne hlexical, hwritten, hlexical, hnew, bind_rename]

/-- A name that is not bound to the declaration is bound, or written out, as it was. -/
theorem named_rename_of_ne {q : Progress} {x : NodeId} {m : Node} (h : HasLocal q.tree c.scopes d s n name)
    (hreg : Registered c.separator q.tree c.scopes) (hn : n' ≠ name)
    (hne : lexical c q.tree n' scope role ≠ .single d) (hm : q.tree.get? x = some m) (hx : ids m.id = false)
    (hnew : ∀ k : Node, q.tree.get? k.id = none → ids k.id = false) :
    named (c.rename d name) (q.rename ids name) x n' scope role = (named c q x n' scope role).rename ids name := by
  rw [named, named]
  simp only [Progress.rename, written?_rename_of_ne h hreg hn hne, lexical_rename_of_ne h hreg hn hne]
  cases written? c q.tree n' scope role with
  | none => simp only [bind_rename]
  | some w => simp only [writeOutAccess_rename ids name hm hx hnew]

/-- Types name the records that they named. -/
theorem recordOfType?_rename (h : HasLocal t c.scopes d s n name) (typeName : String) (scope : ScopeId) :
    recordOfType? (c.rename d name) (t.rename ids name) typeName scope = recordOfType? c t typeName scope := by
  have hd : (t.kind? d == some .recordDecl) = false := by
    obtain ⟨k, hk, hlocal⟩ := h.isLocal
    rw [kind?, hk, Option.map_some]
    rcases hlocal with hk | hk <;> rw [hk] <;> rfl
  have hfind : ∀ q last, ((c.scopes.rename d name).lookup q last).find? (fun e => t.kind? e == some .recordDecl) =
      (c.scopes.lookup q last).find? fun e => t.kind? e == some .recordDecl := by
    intro q last
    by_cases hlast : last = name
    · have hnone : c.scopes.lookup q last = [] := by
        refine List.eq_nil_iff_forall_not_mem.mpr fun e he => ?_
        exact h.fresh _ (mem_lookup_iff.mp he) hlast
      rw [hnone, List.find?_nil, List.find?_eq_none]
      intro e he
      rw [hlast] at he
      rw [((mem_lookup_rename_self h.fresh).mp he).1, hd]
      exact Bool.false_ne_true
    · rw [lookup_rename_of_ne hlast, List.find?_filter]
      refine List.find?_congr fun e _ => ?_
      by_cases he : e = d
      · simp [he, hd]
      · rw [Bool.eq_iff_iff]
        simp [he]
  have hancestors : (c.rename d name).scopes.ancestors scope = c.scopes.ancestors scope :=
    ancestors_congr (scopes_rename ..) scope
  simp only [recordOfType?, hancestors, kind?_rename]
  simp only [Context.rename, hfind]
  rfl

theorem recordOfDeclaration?_rename (h : HasLocal t c.scopes d s n name) (e : NodeId) (scope : ScopeId) :
    recordOfDeclaration? (c.rename d name) (t.rename ids name) e scope = recordOfDeclaration? c t e scope := by
  rw [recordOfDeclaration?, recordOfDeclaration?, get?_rename]
  cases t.get? e with
  | none => rfl
  | some m =>
    simp only [Option.map_some, Option.bind_eq_bind, Option.bind_some, recordOfType?_rename h]
    rfl

theorem recordOfBase?_rename (h : HasLocal t c.scopes d s n name) (base : NodeId) (scope : ScopeId) :
    recordOfBase? (c.rename d name) (t.rename ids name) base scope = recordOfBase? c t base scope := by
  rw [recordOfBase?, recordOfBase?, get?_rename]
  cases t.get? base with
  | none => rfl
  | some m =>
    simp only [Option.map_some, Option.bind_eq_bind, Option.bind_some, Node.rename]
    cases m.payload with
    | newExpr typeName arguments => exact recordOfType?_rename h typeName scope
    | _ => simp only [recordOfDeclaration?_rename h]

/-- A local is no member of a record. -/
theorem not_mem_lookup_of_record (h : HasLocal t c.scopes d s n name) (hreg : Registered c.separator t c.scopes)
    (hplace : ∀ sc, c.scopes.get? s = some sc → sc.kind ≠ .record) {record : NodeId} {q : ScopeId}
    (hk : t.kind? record = some .recordDecl) (hq : c.scopes.scopeOf? record = some q) (n' : String) :
    d ∉ c.scopes.lookup q n' := by
  intro hd
  obtain ⟨rfl, -⟩ := hreg.lookup_unique hd h.declared
  obtain ⟨sc, hsc, hrecord⟩ := kind_of_scopeOf? hreg hk hq
  exact hplace sc hsc hrecord

theorem memberOf_rename (h : HasLocal t c.scopes d s n name) (hreg : Registered c.separator t c.scopes)
    (hplace : ∀ sc, c.scopes.get? s = some sc → sc.kind ≠ .record) (hn : n' ≠ name) {record : Option NodeId}
    (hrecord : ∀ e ∈ record, t.kind? e = some .recordDecl) :
    memberOf (c.rename d name) (t.rename ids name) record n' role = memberOf c t record n' role := by
  have hscope : (c.rename d name).scopes.scopeOf? = c.scopes.scopeOf? :=
    funext (scopeOf?_congr (scopes_rename d name c.scopes))
  rw [memberOf, memberOf, hscope]
  cases hq : record.bind c.scopes.scopeOf? with
  | none => rfl
  | some q =>
    obtain ⟨e, he, hscope⟩ := Option.bind_eq_some_iff.mp hq
    have hd := not_mem_lookup_of_record h hreg hplace (hrecord e he) hscope n'
    simp only [Context.rename, lookup_rename_of_not_mem hn hd, preferred_congr fun e _ => kind?_rename ids name t e]

end

end Binding
end NameResolution
