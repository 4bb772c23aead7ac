import NameResolution.Proofs.Registration.Chain
import NameResolution.Scope.Preference

/-!
# The lexical rule

What a plain name denotes, as a rule over the scopes around it: the innermost scope that declares the name
as what the reference is looking for, and failing that the innermost scope that declares it at all.
`Level.find?` ranks, filters and falls back; it comes to the same.
-/
namespace NameResolution

namespace Tree

def isOneOf (t : Tree) (kinds : List NodeKind) (d : NodeId) : Bool := (t.kind? d).any kinds.contains

/-- The declarations that a reference is looking for. A value is a variable, a parameter or a field, and
only where there is none a record; a callee is a method or a function. -/
def suited (t : Tree) : Role → List NodeId → List NodeId
  | .value, ds =>
    match ds.filter (t.isOneOf [.variableDecl, .parameterDecl, .fieldDecl]) with
    | [] => ds.filter (t.isOneOf [.recordDecl])
    | holders => holders
  | .callee, ds => ds.filter (t.isOneOf [.methodDecl, .functionDecl])

end Tree

/-- What a name denotes in a role, inside the scopes `levels`, the innermost first. -/
inductive Denotes (t : Tree) (S : ScopeTree) (policy : AmbiguityPolicy) (role : Role) (name : String)
    (levels : List ScopeId) : Resolution → Prop
  /-- Some level holds what the reference is looking for, whatever nearer levels hold. -/
  | suited {nearer further : List ScopeId} {s : ScopeId} (split : levels = nearer ++ s :: further)
      (unsuited : ∀ q ∈ nearer, t.suited role (S.lookup q name) = [])
      (found : t.suited role (S.lookup s name) ≠ []) :
      Denotes t S policy role name levels (policy.apply (t.suited role (S.lookup s name)))
  /-- No level does, but some level holds the name. -/
  | fallback {nearer further : List ScopeId} {s : ScopeId} (split : levels = nearer ++ s :: further)
      (unsuited : ∀ q ∈ levels, t.suited role (S.lookup q name) = [])
      (nothing : ∀ q ∈ nearer, S.lookup q name = []) (found : S.lookup s name ≠ []) :
      Denotes t S policy role name levels (policy.apply (S.lookup s name))
  | unbound (nothing : ∀ q ∈ levels, S.lookup q name = []) :
      Denotes t S policy role name levels .unresolved

namespace Tree

theorem suited_subset (t : Tree) (role : Role) (ds : List NodeId) : t.suited role ds ⊆ ds := by
  intro d hd
  cases role with
  | callee => exact List.mem_of_mem_filter hd
  | value =>
    simp only [suited] at hd
    split at hd
    · exact List.mem_of_mem_filter hd
    · exact List.mem_of_mem_filter hd

@[simp] theorem suited_nil (t : Tree) (role : Role) : t.suited role [] = [] := by
  cases role <;> rfl

end Tree

/-- Two levels of a list that are each the first with some property are the same. -/
theorem eq_of_first {α : Type} {p : α → Prop} {xs ys xs' ys' : List α} {a a' : α}
    (h : xs ++ a :: ys = xs' ++ a' :: ys') (hx : ∀ x ∈ xs, ¬ p x) (ha : p a) (hx' : ∀ x ∈ xs', ¬ p x)
    (ha' : p a') : a = a' := by
  induction xs generalizing xs' with
  | nil =>
    cases xs' with
    | nil => exact (List.cons.inj h).1
    | cons b xs' =>
      obtain ⟨rfl, -⟩ := List.cons.inj h
      exact absurd ha (hx' a (by simp))
  | cons b xs ih =>
    cases xs' with
    | nil =>
      obtain ⟨rfl, -⟩ := List.cons.inj h
      exact absurd ha' (hx b (by simp))
    | cons c xs' =>
      exact ih (List.cons.inj h).2 (fun x hm => hx x (List.mem_cons_of_mem _ hm))
        (fun x hm => hx' x (List.mem_cons_of_mem _ hm))

/-- If what is found first by one test passes the other and the other way round, it is the same. -/
theorem eq_of_find? {α : Type} {p q : α → Bool} {xs : List α} {a b : α} (ha : xs.find? p = some a)
    (hb : xs.find? q = some b) (hqa : q a = true) (hpb : p b = true) : a = b := by
  obtain ⟨hpa, nearer, _, hsplit, hnearer⟩ := List.find?_eq_some_iff_append.mp ha
  obtain ⟨hqb, nearer', _, hsplit', hnearer'⟩ := List.find?_eq_some_iff_append.mp hb
  refine eq_of_first (p := fun x => p x = true ∧ q x = true) (hsplit.symm.trans hsplit') ?_ ⟨hpa, hqa⟩ ?_ ⟨hpb, hqb⟩
  · rintro x hx ⟨hno, -⟩
    simpa [hno] using hnearer x hx
  · rintro x hx ⟨-, hno⟩
    simpa [hno] using hnearer' x hx

namespace Denotes
variable {t : Tree} {S : ScopeTree} {policy : AmbiguityPolicy} {role : Role} {name : String}
  {levels : List ScopeId} {r r' : Resolution}

/-- A name denotes one thing only. -/
theorem unique (h : Denotes t S policy role name levels r) (h' : Denotes t S policy role name levels r') :
    r = r' := by
  cases h with
  | suited split unsuited found =>
    cases h' with
    | suited split' unsuited' found' =>
      rw [eq_of_first (p := fun q => t.suited role (S.lookup q name) ≠ []) (split.symm.trans split')
        (fun q hq => not_not.mpr (unsuited q hq)) found (fun q hq => not_not.mpr (unsuited' q hq)) found']
    | fallback _ unsuited' _ _ => exact absurd (unsuited' _ (by simp [split])) found
    | unbound nothing => exact absurd (by rw [nothing _ (by simp [split]), Tree.suited_nil]) found
  | fallback split unsuited nothing found =>
    cases h' with
    | suited split' _ found' => exact absurd (unsuited _ (by simp [split'])) found'
    | fallback split' _ nothing' found' =>
      rw [eq_of_first (p := fun q => S.lookup q name ≠ []) (split.symm.trans split')
        (fun q hq => not_not.mpr (nothing q hq)) found (fun q hq => not_not.mpr (nothing' q hq)) found']
    | unbound nothing' => exact absurd (nothing' _ (by simp [split])) found
  | unbound nothing =>
    cases h' with
    | suited split _ found => exact absurd (by rw [nothing _ (by simp [split]), Tree.suited_nil]) found
    | fallback split _ _ found => exact absurd (nothing _ (by simp [split])) found
    | unbound => rfl

end Denotes

namespace Tree
variable {t : Tree} {role : Role} {ds : List NodeId}

def AreDeclarations (t : Tree) (ds : List NodeId) : Prop :=
  ∀ d ∈ ds, ∃ k, t.kind? d = some k ∧ k.isDeclaration = true

theorem preferred_subset (t : Tree) (role : Role) (ds : List NodeId) : t.preferred role ds ⊆ ds := by
  intro d hd
  simp only [preferred] at hd
  split at hd
  · cases hd
  · obtain ⟨p, hp, rfl⟩ := List.mem_map.mp hd
    obtain ⟨e, he, heq⟩ := List.mem_filterMap.mp (List.mem_of_mem_filter hp)
    obtain ⟨k, -, rfl⟩ := Option.map_eq_some_iff.mp heq
    exact he

/-- The candidates of the best rank, if `best` is that rank. -/
theorem preferred_eq_filter (hds : t.AreDeclarations ds) {best : Nat} {d : NodeId} {k : NodeKind}
    (hd : d ∈ ds) (hk : t.kind? d = some k) (hbest : role.rank k = best)
    (hle : ∀ d ∈ ds, ∀ k, t.kind? d = some k → best ≤ role.rank k) :
    t.preferred role ds = ds.filter fun d => (t.kind? d).any (role.rank · == best) := by
  have hmin : ((ds.filterMap fun id => (t.kind? id).map fun k => (id, role.rank k)).map Prod.snd).min? =
      some best := by
    refine List.min?_eq_some_iff.mpr ⟨?_, ?_⟩
    · refine List.mem_map.mpr ⟨(d, best), List.mem_filterMap.mpr ⟨d, hd, ?_⟩, rfl⟩
      rw [hk, Option.map_some, hbest]
    · intro b hb
      obtain ⟨⟨d', b'⟩, hmem, rfl⟩ := List.mem_map.mp hb
      obtain ⟨e, he, heq⟩ := List.mem_filterMap.mp hmem
      obtain ⟨k', hk', heq⟩ := Option.map_eq_some_iff.mp heq
      cases heq
      exact hle d' he k' hk'
  rw [preferred, hmin]
  simp only
  clear hmin hle hd
  induction ds with
  | nil => rfl
  | cons e ds ih =>
    obtain ⟨k', hk', -⟩ := hds e (by simp)
    have ih := ih fun d hd => hds d (List.mem_cons_of_mem _ hd)
    rw [List.filterMap_cons, hk', Option.map_some, List.filter_cons (x := e), hk', Option.any_some]
    by_cases hr : role.rank k' = best
    · simp [hr, ih]
    · simp [hr, ih]

/-- The kinds of the best rank that some candidate has are the kinds that the rule takes. -/
theorem preferred_eq_filter_isOneOf (hds : t.AreDeclarations ds) (best : Nat) {kinds : List NodeKind}
    (hkinds : ∀ k, (role.rank k == best) = kinds.contains k)
    (hfound : ds.filter (t.isOneOf kinds) ≠ [])
    (hle : ∀ d ∈ ds, ∀ k, t.kind? d = some k → best ≤ role.rank k) :
    t.preferred role ds = ds.filter (t.isOneOf kinds) := by
  obtain ⟨d, hd⟩ := List.exists_mem_of_ne_nil _ hfound
  obtain ⟨hmem, hone⟩ := List.mem_filter.mp hd
  obtain ⟨k, hk, -⟩ := hds d hmem
  have hrank : role.rank k = best := by
    rw [isOneOf, hk, Option.any_some, ← hkinds] at hone
    exact eq_of_beq hone
  rw [preferred_eq_filter hds hmem hk hrank hle]
  simp only [hkinds]
  rfl

theorem preferred_of_suited (hds : t.AreDeclarations ds) (h : t.suited role ds ≠ []) :
    t.preferred role ds = t.suited role ds := by
  cases role with
  | callee =>
    refine preferred_eq_filter_isOneOf hds 0 (fun k => by cases k <;> rfl) h ?_
    exact fun _ _ _ _ => Nat.zero_le _
  | value =>
    simp only [suited] at h ⊢
    split at h
    case h_1 hnone =>
      refine preferred_eq_filter_isOneOf hds 1 (fun k => by cases k <;> rfl) h ?_
      intro d hd k hk
      have hno := List.filter_eq_nil_iff.mp hnone d hd
      rw [isOneOf, hk] at hno
      cases k <;> first | decide | exact absurd rfl hno
    case h_2 =>
      refine preferred_eq_filter_isOneOf hds 0 (fun k => by cases k <;> rfl) h ?_
      exact fun _ _ _ _ => Nat.zero_le _

/-- Without what the reference is looking for, all candidates are of one rank. -/
theorem rank_of_unsuited (hds : t.AreDeclarations ds) (h : t.suited role ds = []) {d : NodeId}
    (hd : d ∈ ds) {k : NodeKind} (hk : t.kind? d = some k) :
    role.unsuited k = true ∧ role.rank k = (match role with | .value => 2 | .callee => 1) := by
  obtain ⟨k', hk', hdecl⟩ := hds d hd
  rw [hk] at hk'
  cases hk'
  cases role with
  | callee =>
    have hno := List.filter_eq_nil_iff.mp h d hd
    rw [isOneOf, hk] at hno
    cases k <;> first | exact ⟨rfl, rfl⟩ | exact absurd rfl hno
  | value =>
    simp only [suited] at h
    split at h
    case h_1 hnone =>
      have hno := List.filter_eq_nil_iff.mp hnone d hd
      have hno' := List.filter_eq_nil_iff.mp h d hd
      rw [isOneOf, hk] at hno hno'
      cases k <;> first | exact ⟨rfl, rfl⟩ | exact absurd rfl hno | exact absurd rfl hno' | cases hdecl
    case h_2 hsome => exact absurd h hsome

theorem preferred_of_unsuited (hds : t.AreDeclarations ds) (h : t.suited role ds = []) :
    t.preferred role ds = ds := by
  cases ds with
  | nil => rfl
  | cons e ds =>
    obtain ⟨k, hk, -⟩ := hds e (by simp)
    have hrank := fun {d} (hd : d ∈ e :: ds) {k} (hk : t.kind? d = some k) =>
      (rank_of_unsuited hds h hd hk).2
    rw [preferred_eq_filter hds (by simp) hk (hrank (by simp) hk) fun d hd k hk => (hrank hd hk).ge]
    refine List.filter_eq_self.mpr fun d hd => ?_
    obtain ⟨k', hk', -⟩ := hds d hd
    rw [hk', Option.any_some, hrank hd hk']
    exact beq_self_eq_true _

/-- Only candidates that do not suit the role are a fallback. -/
theorem isFallback_preferred (hds : t.AreDeclarations ds) (hne : ds ≠ []) :
    t.isFallback role (t.preferred role ds) = true ↔ t.suited role ds = [] := by
  by_cases h : t.suited role ds = []
  · rw [preferred_of_unsuited hds h]
    refine iff_of_true ?_ h
    obtain ⟨d, ds', rfl⟩ := List.exists_cons_of_ne_nil hne
    obtain ⟨k, hk, -⟩ := hds d (by simp)
    rw [isFallback, List.head?_cons, Option.bind_some, hk, Option.any_some]
    exact (rank_of_unsuited hds h (by simp) hk).1
  · rw [preferred_of_suited hds h]
    refine iff_of_false ?_ h
    obtain ⟨d, ds', hcons⟩ := List.exists_cons_of_ne_nil h
    have hd : d ∈ t.suited role ds := by simp [hcons]
    obtain ⟨k, hk, -⟩ := hds d (suited_subset t role ds hd)
    rw [hcons, isFallback, List.head?_cons, Option.bind_some, hk, Option.any_some]
    cases role with
    | callee =>
      have hone := (List.mem_filter.mp hd).2
      rw [isOneOf, hk] at hone
      cases k <;> first | decide | cases hone
    | value =>
      simp only [suited] at hd
      split at hd
      · have hone := (List.mem_filter.mp hd).2
        rw [isOneOf, hk] at hone
        cases k <;> first | decide | cases hone
      · have hone := (List.mem_filter.mp hd).2
        rw [isOneOf, hk] at hone
        cases k <;> first | decide | cases hone

end Tree

section
variable {t : Tree} {S : ScopeTree} {role : Role} {name : String}

/-- The level that is found, as two searches outward. -/
theorem Level.find?_eq (hds : ∀ s, t.AreDeclarations (S.lookup s name)) (s : ScopeId) :
    Level.find? t S s name role =
      (((S.ancestors s).find? fun p => t.suited role (S.lookup p.1 name) ≠ []).or
        ((S.ancestors s).find? fun p => S.lookup p.1 name ≠ [])).map
          fun p => ⟨p.2, t.preferred role (S.lookup p.1 name)⟩ := by
  have hheld : ∀ ds, t.AreDeclarations ds → (!(t.preferred role ds).isEmpty) = decide (ds ≠ []) := by
    intro ds hds
    rw [Bool.eq_iff_iff, decide_eq_true_iff, Bool.not_eq_true', ← Bool.not_eq_true, List.isEmpty_iff]
    by_cases h : t.suited role ds = []
    · rw [Tree.preferred_of_unsuited hds h]
    · rw [Tree.preferred_of_suited hds h]
      exact iff_of_true h fun hnil => h (by rw [hnil, Tree.suited_nil])
  have hsuited : ∀ ds, t.AreDeclarations ds →
      decide (decide (ds ≠ []) = true ∧ (!t.isFallback role (t.preferred role ds)) = true) =
        decide (t.suited role ds ≠ []) := by
    intro ds hds
    rw [decide_eq_decide, decide_eq_true_iff, Bool.not_eq_true', ← Bool.not_eq_true]
    constructor
    · rintro ⟨hne, hno⟩
      exact (Tree.isFallback_preferred hds hne).not.mp hno
    · intro h
      have hne : ds ≠ [] := fun hnil => h (by rw [hnil, Tree.suited_nil])
      exact ⟨hne, (Tree.isFallback_preferred hds hne).not.mpr h⟩
  rw [Level.find?, Level.all, List.find?_filter, List.head?_filter, List.find?_map, List.find?_map,
    Option.map_or]
  simp only [Function.comp_def, hheld _ (hds _)]
  simp only [hsuited _ (hds _)]

/-- What a name is bound to at its level is what it denotes. -/
theorem denotes_find? (hds : ∀ s, t.AreDeclarations (S.lookup s name)) (policy : AmbiguityPolicy)
    (s : ScopeId) :
    Denotes t S policy role name ((S.ancestors s).map Prod.fst)
      (match Level.find? t S s name role with
        | none => .unresolved
        | some level => policy.apply level.candidates) := by
  rw [Level.find?_eq hds]
  cases hsuited : (S.ancestors s).find? fun p => t.suited role (S.lookup p.1 name) ≠ [] with
  | some p =>
    obtain ⟨hp, nearer, further, hsplit, hnearer⟩ := List.find?_eq_some_iff_append.mp hsuited
    have hp : t.suited role (S.lookup p.1 name) ≠ [] := of_decide_eq_true hp
    rw [Option.some_or, Option.map_some]
    simp only [Tree.preferred_of_suited (hds _) hp]
    refine .suited (by rw [hsplit, List.map_append, List.map_cons]) ?_ hp
    intro q hq
    obtain ⟨p', hp', rfl⟩ := List.mem_map.mp hq
    simpa using hnearer p' hp'
  | none =>
    have hno : ∀ q ∈ (S.ancestors s).map Prod.fst, t.suited role (S.lookup q name) = [] := by
      intro q hq
      obtain ⟨p, hp, rfl⟩ := List.mem_map.mp hq
      simpa using List.find?_eq_none.mp hsuited p hp
    rw [Option.none_or]
    cases hheld : (S.ancestors s).find? fun p => S.lookup p.1 name ≠ [] with
    | some p =>
      obtain ⟨hp, nearer, further, hsplit, hnearer⟩ := List.find?_eq_some_iff_append.mp hheld
      have hp : S.lookup p.1 name ≠ [] := of_decide_eq_true hp
      have hunsuited := hno p.1 (by rw [hsplit]; simp)
      rw [Option.map_some]
      simp only [Tree.preferred_of_unsuited (hds _) hunsuited]
      refine .fallback (by rw [hsplit, List.map_append, List.map_cons]) hno ?_ hp
      intro q hq
      obtain ⟨p', hp', rfl⟩ := List.mem_map.mp hq
      simpa using hnearer p' hp'
    | none =>
      refine .unbound fun q hq => ?_
      obtain ⟨p, hp, rfl⟩ := List.mem_map.mp hq
      simpa using List.find?_eq_none.mp hheld p hp

end

section
variable {t t' : Tree} {S : ScopeTree} {name : String}

theorem Tree.preferred_congr {ds : List NodeId} (h : ∀ d ∈ ds, t'.kind? d = t.kind? d) (role : Role) :
    t'.preferred role ds = t.preferred role ds := by
  have hranked : (ds.filterMap fun id => (t'.kind? id).map fun k => (id, role.rank k)) =
      ds.filterMap fun id => (t.kind? id).map fun k => (id, role.rank k) :=
    List.filterMap_congr fun d hd => by rw [h d hd]
  rw [preferred, preferred, hranked]

theorem Level.find?_congr (h : ∀ s, ∀ d ∈ S.lookup s name, t'.kind? d = t.kind? d) (s : ScopeId)
    (role : Role) : Level.find? t' S s name role = Level.find? t S s name role := by
  have hall : Level.all t' S s name role = Level.all t S s name role := by
    simp only [Level.all, Tree.preferred_congr (h _)]
  have hfallback : ∀ l ∈ Level.all t S s name role,
      t'.isFallback role l.candidates = t.isFallback role l.candidates := by
    intro l hl
    obtain ⟨p, -, rfl⟩ := List.mem_map.mp (List.mem_of_mem_filter hl)
    simp only [Tree.isFallback]
    cases hhead : (t.preferred role (S.lookup p.1 name)).head? with
    | none => rfl
    | some d =>
      have hd := List.mem_of_mem_head? hhead
      rw [Option.bind_some, Option.bind_some, h p.1 d (Tree.preferred_subset t role _ hd)]
  rw [Level.find?, Level.find?, hall]
  congr 1
  exact List.find?_congr fun l hl => by rw [hfallback l hl]

end
end NameResolution
