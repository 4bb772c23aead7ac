import NameResolution.Proofs.Binding.Candidates
import NameResolution.Proofs.Binding.Invariant

/-!
# Binding over its own result

A tree whose references are bound may be walked over again. The second walk does the steps of the first, but
where a name has been written out it binds the base and then the access, as it would for any other access. What
it finds there need not be what the first walk has put there.
-/
namespace NameResolution.Binding
open NameResolution.Tree ScopeTree Registration

/-- What becomes of a step in a walk over the tree `T` that the step has led to. -/
def Step.again (T : Tree) : Step → List Step
  | name id scope role =>
    match (T.get? id).map Node.payload with
    | some (.member ⟨some base, some member, _, _⟩) =>
      [name base scope .value, access id base member scope role]
    | _ => [name id scope role]
  | s => [s]

section
variable {c : Context} {S : ScopeTree} {t T : Tree} {id base member : NodeId} {n : Node} {scope outer : ScopeId}
  {role : Role} {r : Resolution}

@[simp] theorem Step.again_access (T : Tree) :
    (access id base member scope role).again T = [access id base member scope role] := rfl

theorem Step.again_of_reference (hn : T.get? id = some n) (hp : n.payload = .reference r) :
    (name id scope role).again T = [name id scope role] := by
  simp [again, hn, hp]

theorem Step.again_of_access {a : Access} (hn : T.get? id = some n) (hp : n.payload = .member a)
    (hb : a.base = some base) (hm : a.member = some member) :
    (name id scope role).again T = [name base scope .value, access id base member scope role] := by
  obtain ⟨_, _, _, _⟩ := a
  cases hb
  cases hm
  simp [again, hn, hp]

/-- The walk over the tree that binding has led to does for each step of the first walk what becomes of it. -/
theorem steps_again {depth depth' : Nat} (ht : t.WellFormed) (hT : T.WellFormed) (hext : t.Extends T)
    (hsame : t.SameDeclarations T)
    (hS : ∀ {x n}, T.get? x = some n → n.kind.isReference = true → S.scopeOf? x = none)
    (hn : t.get? id = some n) (hdepth : t.size < depth + (t.ancestors id).length)
    (hdepth' : T.size < depth' + (T.ancestors id).length)
    (hsettled : ∀ s ∈ steps S t depth id outer role, Settled c t T s) :
    steps S T depth' id outer role = (steps S t depth id outer role).flatMap (Step.again T) := by
  induction depth generalizing id n outer role depth' with
  | zero =>
    have := ht.length_ancestors_lt hn
    omega
  | succ depth ih =>
    obtain ⟨n', hn', -⟩ := hext.node hn
    obtain ⟨depth', rfl⟩ : ∃ k, depth' = k + 1 := by
      have := hT.length_ancestors_lt hn'
      exact ⟨depth' - 1, by omega⟩
    have hchild : ∀ {d}, d ∈ n.children → t.size < depth + (t.ancestors d).length ∧
        T.size < depth' + (T.ancestors d).length := by
      intro d hd
      obtain ⟨m, hm, -⟩ := ht.parent_of_child hn hd
      rw [hext.ancestors_eq ht hm, ht.ancestors_of_child hn hd, List.length_cons]
      rw [hext.ancestors_eq ht hn] at hdepth'
      omega
    rcases node_cases n with ⟨r, hp⟩ | ⟨a, b, m, hp, hb, hm⟩ | ⟨a, fault, hp, hf⟩ | hk
    · rw [steps_of_reference hn hp] at hsettled ⊢
      rw [List.flatMap_singleton]
      cases hsettled _ (List.mem_singleton.mpr rfl) with
      | bound _ _ now => rw [Step.again_of_reference now rfl, steps_of_reference now rfl]
      | @written _ _ _ _ w base member _ _ _ _ now baseNow _ =>
        -- The base is deeper than the access, so that the walk gets there.
        obtain ⟨depth', rfl⟩ : ∃ k, depth' = k + 1 := by
          have hlt := hT.length_ancestors_lt baseNow
          rw [hT.ancestors_of_parent baseNow rfl, List.length_cons] at hlt
          exact ⟨depth' - 1, by omega⟩
        rw [Step.again_of_access now rfl rfl rfl, steps_of_access now rfl rfl rfl,
          steps_of_reference baseNow rfl, hS baseNow rfl, Option.getD_none]
        rfl
    · have hbc := base_mem_children hp hb
      obtain ⟨k, hk, -⟩ := ht.parent_of_child hn hbc
      rw [steps_of_access hn hp hb hm] at hsettled ⊢
      rw [List.flatMap_append, List.flatMap_singleton]
      cases hsettled _ (List.mem_append_right _ (List.mem_singleton.mpr rfl)) with
      | access node payload _ now _ _ _ =>
        rw [hn] at node
        cases node
        rw [hp] at payload
        cases payload
        rw [steps_of_access now rfl hb hm, ih hk (hchild hbc).1 (hchild hbc).2
          fun s hs => hsettled s (List.mem_append_left _ hs)]
        rfl
    · rw [steps_of_fault hn hp hf] at hsettled
      cases hsettled _ (List.mem_singleton.mpr rfl)
    · rw [steps_of_not_reference hn hk] at hsettled ⊢
      rw [steps_of_not_reference ((hsame hk).mpr hn) hk, List.flatMap_assoc]
      refine List.flatMap_congr fun d hd => ?_
      obtain ⟨m, hm, -⟩ := ht.parent_of_child hn hd
      exact ih hm (hchild hd).1 (hchild hd).2 fun s hs => hsettled s (List.mem_flatMap.mpr ⟨d, hd, hs⟩)

/-- No step of the second walk fails. -/
theorem fail_not_mem_again {xs : List Step} (hsettled : ∀ s ∈ xs, Settled c t T s) (e : ResolveError) :
    Step.fail e ∉ xs.flatMap (Step.again T) := by
  intro hmem
  obtain ⟨s, hs, hfail⟩ := List.mem_flatMap.mp hmem
  cases hsettled s hs with
  | bound _ _ now => simp [Step.again_of_reference now rfl] at hfail
  | written _ _ _ _ now => simp [Step.again_of_access now rfl rfl rfl] at hfail
  | access => simp at hfail

/-- A base that is bound as before leads to the same record. -/
theorem recordOfBase?_again (h : Grounded t c.scopes) (hsame : t.SameDeclarations T)
    (hn : t.get? base = some n) (hbound : ∀ r, t.resolution? base = some r → T.resolution? base = some r)
    (scope : ScopeId) : recordOfBase? c T base scope = recordOfBase? c t base scope := by
  cases hk : n.kind.isReference with
  | true =>
    have hsome : n.payload.resolution?.isSome = true := by rw [Payload.resolution?_isSome, ← Node.kind, hk]
    obtain ⟨r, hp⟩ := Option.isSome_iff_exists.mp hsome
    have hr : t.resolution? base = some r := by rw [resolution?, hn, Option.bind_some, hp]
    rw [recordOfBase?_of_resolution hr, recordOfBase?_of_resolution (hbound r hr)]
    cases r.single? with
    | none => rfl
    | some d => exact recordOfDeclaration?_congr h hsame d scope
  | false => exact recordOfBase?_congr h hsame (by rw [hn, (hsame hk).mpr hn]) scope

end

end NameResolution.Binding
