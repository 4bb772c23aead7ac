import NameResolution.Proofs.Respects

/-!
# Accesses that lack a part

An access without a base or without a member half cannot be bound, and nothing else cannot. No pass makes such an
access or mends one, so that the tree tells before any pass whether there is one.
-/
namespace NameResolution

namespace Tree
variable {t : Tree}

/-- What an access is lacking, and where it stands. -/
def lack? (t : Tree) (id : NodeId) : Option (Option Region × Fault) :=
  (t.get? id).bind fun n =>
    match n.payload with
    | .member a => a.fault?.map fun fault => (n.region, fault)
    | _ => none

theorem lack?_eq_some_iff {id : NodeId} {region : Option Region} {fault : Fault} :
    t.lack? id = some (region, fault) ↔
      ∃ n a, t.get? id = some n ∧ n.region = region ∧ n.payload = .member a ∧ a.fault? = some fault := by
  rw [lack?, Option.bind_eq_some_iff]
  constructor
  · rintro ⟨n, hn, h⟩
    split at h
    case h_1 a hp =>
      obtain ⟨_, hf, heq⟩ := Option.map_eq_some_iff.mp h
      cases heq
      exact ⟨n, a, hn, rfl, hp, hf⟩
    case h_2 => cases h
  · rintro ⟨n, a, hn, rfl, hp, hf⟩
    exact ⟨n, hn, by simp only [hp, hf, Option.map_some]⟩

/-- Passes add only accesses that lack nothing, and mend none. -/
theorem respects_lack? : Respects fun t t' => ∀ id, t'.lack? id = t.lack? id where
  refl _ _ := rfl
  trans h h' id := (h' id).trans (h id)
  add {t _ _} _ name typeName id := by
    rw [lack?, get?_addImplicitField]
    split
    case isTrue hid =>
      rw [lack?, hid, get?_nextId]
      rfl
    case isFalse => rfl
  fill t id f os j := by
    rw [lack?, lack?, get?_modify]
    split
    · cases t.get? j with
      | none => rfl
      | some n =>
        obtain ⟨_, _, _, _, payload⟩ := n
        cases payload <;> rfl
    · rfl
  bind t id r j := by
    rw [lack?, lack?, get?_bind]
    split
    · cases t.get? j with
      | none => rfl
      | some n =>
        obtain ⟨_, _, _, _, payload⟩ := n
        cases payload <;> rfl
    · rfl
  write {t id n ρ} hn hp base baseTo memberTo j := by
    rw [lack?, lack?, get?_writeOutAccess base baseTo memberTo hn]
    by_cases hj : j = id
    · rw [if_pos hj, hj, hn, Option.bind_some, Option.bind_some, hp]
      rfl
    · rw [if_neg hj]
      by_cases hbase : j = t.nextId
      · rw [if_pos hbase, hbase, get?_nextId]
        rfl
      · rw [if_neg hbase]
        by_cases hmember : j = ⟨t.size + 1⟩
        · rw [if_pos hmember, hmember, get?_eq_none_iff.mpr (Nat.le_succ _)]
          rfl
        · rw [if_neg hmember]

end Tree

namespace Binding
open NameResolution.Tree

/-- A step that is laid out to fail does so for an access that lacks a part. -/
theorem exists_lack_of_fail_mem {S : ScopeTree} {t : Tree} {depth : Nat} {id : NodeId} {outer : ScopeId} {role : Role}
    {e : ResolveError} (h : Step.fail e ∈ steps S t depth id outer role) :
    ∃ x region fault, t.lack? x = some (region, fault) ∧ e = .malformed x region fault := by
  induction depth generalizing id outer role with
  | zero => cases h
  | succ depth ih =>
    cases hn : t.get? id with
    | none => simp [steps, hn] at h
    | some n =>
      rcases node_cases n with ⟨r, hp⟩ | ⟨a, b, m, hp, hb, hm⟩ | ⟨a, fault, hp, hf⟩ | hk
      · simp [steps_of_reference hn hp] at h
      · rw [steps_of_access hn hp hb hm] at h
        rcases List.mem_append.mp h with h | h
        · exact ih h
        · simp at h
      · rw [steps_of_fault hn hp hf, List.mem_singleton, Step.fail.injEq] at h
        exact ⟨id, n.region, fault, lack?_eq_some_iff.mpr ⟨n, a, hn, rfl, hp, hf⟩, h⟩
      · rw [steps_of_not_reference hn hk] at h
        obtain ⟨c, -, h⟩ := List.mem_flatMap.mp h
        exact ih h

end Binding

namespace Tree
variable {languages : Set String} {config : Config} {t t' T : Tree} {root x : NodeId} {u : ResolvedUnit}
  {p : Registration.Progress}

theorem RegistersIn.lack?_eq (h : RegistersIn languages config t root p) (x : NodeId) :
    p.tree.lack? x = t.lack? x := by
  obtain ⟨-, -, hkeeps⟩ := Registration.runSteps_keeps (p := { tree := t }) h.proper h.language
    (Registration.steps t t.depthLimit root)
  rw [h.registration, endState_ok] at hkeeps
  refine Option.ext fun ⟨region, fault⟩ => ?_
  rw [lack?_eq_some_iff, lack?_eq_some_iff]
  constructor
  · rintro ⟨n, a, hn, hregion, hp, hf⟩
    exact ⟨n, a, h.get?_of_reference hn (by rw [Node.kind, hp]; rfl), hregion, hp, hf⟩
  · rintro ⟨n, a, hn, hregion, hp, hf⟩
    exact ⟨n, a, hkeeps hn (by rw [Node.kind, hp]; exact NodeKind.noConfusion), hregion, hp, hf⟩

/-- All that binding can fail over is an access that lacks a part. -/
theorem RegistersIn.exists_lack_of_binding_error (h : RegistersIn languages config t root p) {e : ResolveError}
    {q : Binding.Progress}
    (hq : runSteps (Binding.exec ⟨p.scopes, config.ambiguity, config.separator⟩)
      (p.tree.bindingSteps p.scopes root) { tree := p.tree } = .error e q) :
    ∃ x region fault, t.lack? x = some (region, fault) ∧ e = .malformed x region fault := by
  have hp := h.walked.proper
  have hplaced := h.placed
  have hpairwise : (p.tree.bindingSteps p.scopes root).Pairwise fun s s' => ∀ x ∈ s'.targets, x ∉ s.reads :=
    Binding.steps_pairwise hp.toWellFormed
  obtain ⟨done, s, rest, q', hsplit, hdone, hs⟩ := exists_step_of_error hq
  have hmem : s ∈ p.tree.bindingSteps p.scopes root := hsplit ▸ by simp
  rw [hsplit] at hpairwise hplaced
  have hinv := Binding.Invariant.run hp h.walked.grounded (fun s hs => hplaced s (List.mem_append_left _ hs))
    (List.pairwise_append.mp hpairwise).1 hdone
  rcases hinv.step hp h.walked.grounded (hplaced s (by simp)) (Binding.not_mem_reads hpairwise) with
    ⟨_, hok, -⟩ | ⟨e', rfl, herror⟩
  · rw [hs] at hok
    cases hok
  · rw [hs] at herror
    cases herror
    obtain ⟨x, region, fault, hlack, he⟩ := Binding.exists_lack_of_fail_mem hmem
    exact ⟨x, region, fault, h.lack?_eq x ▸ hlack, he⟩

/-- A pass that succeeds finds no access that lacks a part. -/
theorem PassIn.lack?_eq_none (h : PassIn languages config t t' T u) (x : NodeId) : t.lack? x = none := by
  rw [← h.toRegistersIn.lack?_eq x, Option.eq_none_iff_forall_ne_some]
  rintro ⟨region, fault⟩ hlack
  obtain ⟨n, a, hn, -, hp, hf⟩ := lack?_eq_some_iff.mp hlack
  obtain ⟨base, member, _, _, hb, hm, -⟩ := h.exists_access hn hp
  rw [Access.fault?_eq_none_iff.mpr ⟨base, member, hb, hm⟩] at hf
  cases hf

end Tree
end NameResolution
