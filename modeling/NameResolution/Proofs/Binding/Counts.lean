import NameResolution.Proofs.Binding.Invariant

/-!
# What a walk counts

Every step counts one reference, as resolved or as unresolved. A step that writes a name out counts one implicit
member besides, and the base that it puts below the name is there to tell.
-/
namespace NameResolution

def Payload.base? : Payload → Option NodeId
  | .member a => a.base
  | _ => none

def Bindings.counted (b : Bindings) : Nat := b.resolved + b.unresolved.size

@[simp] theorem Bindings.counted_record (b : Bindings) (id : NodeId) (r : Resolution) :
    (b.record id r).counted = b.counted + 1 := by
  cases r <;> simp [Bindings.record, Bindings.counted, Resolution.isResolved] <;> omega

@[simp] theorem Bindings.implicitMembers_record (b : Bindings) (id : NodeId) (r : Resolution) :
    (b.record id r).implicitMembers = b.implicitMembers := by
  unfold Bindings.record
  split <;> rfl

namespace Binding
open NameResolution.Tree Registration

def Step.writes? (c : Context) (t : Tree) : Step → Option ImplicitAccess
  | name id scope role => (t.get? id).bind fun n => written? c t n.name scope role
  | access .. | fail _ => none

/-- The base that a step has put below a name. -/
def Step.base? (T : Tree) : Step → Option NodeId
  | name id _ _ => (T.get? id).bind fun n => n.payload.base?
  | access .. | fail _ => none

/-- A step binds the node that it belongs to. -/
theorem Step.node?_mem_targets {s : Step} {x : NodeId} (h : s.node? = some x) : x ∈ s.targets := by
  cases s <;> cases h <;> simp [targets]

variable {languages : Set String} {c : Context} {t T : Tree} {p p' : Progress} {s : Step} {xs : List Step}

/-- The base tells that a name has been written out. -/
theorem Settled.isSome_base? (h : Settled c t T s) : (s.base? T).isSome = (s.writes? c t).isSome := by
  cases h with
  | bound node notWritten now => simp [Step.base?, Step.writes?, node, now, notWritten, Payload.base?]
  | written node isWritten _ _ now _ _ => simp [Step.base?, Step.writes?, node, now, isWritten, Payload.base?]
  | access => rfl

/-- A step that succeeds counts one reference. -/
theorem counted_exec (h : (exec c s).run p = .ok () p') : p'.bindings.counted = p.bindings.counted + 1 := by
  cases h ▸ exec_effect c p s with
  | @name id n scope role =>
    rw [named]
    cases written? c p.tree n.name scope role with
    | none => exact Bindings.counted_record ..
    | some w => simp [Bindings.counted, Nat.add_right_comm]
  | access => exact Bindings.counted_record ..

/-- A run counts one reference for each step. -/
theorem counted_run (hrun : runSteps (exec c) xs { tree := t } = .ok () p') :
    p'.bindings.counted = xs.length := by
  refine runSteps_induction (I := fun done p => p.bindings.counted = done.length) rfl ?_ hrun
  intro done s _ p₁ p₂ _ h hs _
  rw [counted_exec hs, h, List.length_append, List.length_singleton]

namespace Invariant
variable {done : List Step}

/-- A step counts an implicit member if it writes a name out. -/
theorem implicitMembers_exec (h : Invariant languages c t done p) (hground : Grounded t c.scopes)
    (hs : Placed c.scopes t s) (hreads : ∀ s' ∈ done, ∀ x ∈ s.targets, x ∉ s'.reads)
    (hrun : (exec c s).run p = .ok () p') :
    p'.bindings.implicitMembers = p.bindings.implicitMembers + if (s.writes? c t).isSome then 1 else 0 := by
  have hunbound : ∀ {x m}, x ∈ s.targets → t.get? x = some m → p.tree.get? x = some m :=
    fun hx hm => h.pending hm fun s' hs' hmem => hreads s' hs' _ hx (s'.targets_subset_reads hmem)
  cases hs with
  | fail e => cases hrun
  | @name id n r scope hn hp hplain hin =>
    rw [exec, bindName_run c _ _ (hunbound (by simp [Step.targets]) hn)] at hrun
    cases hrun
    rw [named, written?_congr hground h.same, Step.writes?, hn, Option.bind_some]
    cases written? c t n.name scope (t.roleOf id) with
    | none => exact Bindings.implicitMembers_record ..
    | some w => rfl
  | @access id n a base member scope hn hp hb hm hin =>
    cases hrun ▸ exec_effect c p _ with
    | access => exact Bindings.implicitMembers_record ..

/-- A run counts one implicit member for each base that it leaves behind. -/
theorem implicitMembers_run (ht : t.ProperIn languages) (hground : Grounded t c.scopes)
    (hplaced : ∀ s ∈ xs, Placed c.scopes t s)
    (hpairwise : xs.Pairwise fun s s' => ∀ x ∈ s'.targets, x ∉ s.reads)
    (hrun : runSteps (exec c) xs { tree := t } = .ok () p') :
    p'.bindings.implicitMembers = (xs.filterMap (Step.base? p'.tree)).length := by
  have hwritten : p'.bindings.implicitMembers = xs.countP fun s => (s.writes? c t).isSome := by
    refine (runSteps_induction (I := fun done p => Invariant languages c t done p ∧
      p.bindings.implicitMembers = done.countP fun s => (s.writes? c t).isSome) ⟨start ht, rfl⟩ ?_ hrun).2
    rintro done s rest p₁ p₂ hsplit ⟨h, hcount⟩ hs -
    have hmem : s ∈ xs := hsplit ▸ by simp
    have hreads := not_mem_reads (hsplit ▸ hpairwise)
    have himplicit := h.implicitMembers_exec hground (hplaced s hmem) hreads hs
    refine ⟨?_, by rw [himplicit, hcount, List.countP_append, List.countP_singleton]⟩
    rcases h.step ht hground (hplaced s hmem) hreads with ⟨p₃, hs', h'⟩ | ⟨e, -, hs'⟩
    · rw [hs] at hs'
      cases hs'
      exact h'
    · rw [hs] at hs'
      cases hs'
  have hsettled := (run ht hground hplaced hpairwise hrun).settled
  rw [hwritten, List.length_filterMap_eq_countP]
  exact List.countP_congr fun s hs => by rw [(hsettled s hs).isSome_base?]

end Invariant

end Binding
end NameResolution
