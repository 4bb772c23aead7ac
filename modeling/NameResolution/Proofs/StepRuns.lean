import Mathlib.Order.Defs.Unbundled

/-!
# Runs of step lists

Both walks over a tree amount to a list of steps that are done one after another, up to the first that
fails. What every step keeps, every run keeps; and a run that succeeds can be taken apart at any of its
steps.
-/
namespace NameResolution

section
variable {ε σ α β : Type}

/-- The state that a run leaves behind, whether it succeeds or fails. -/
def endState : EStateM.Result ε σ α → σ
  | .ok _ s => s
  | .error _ s => s

@[simp] theorem endState_ok (a : α) (s : σ) : endState (.ok a s : EStateM.Result ε σ α) = s := rfl

@[simp] theorem endState_error (e : ε) (s : σ) :
    endState (.error e s : EStateM.Result ε σ α) = s := rfl

/-- A computation goes on from where its first part ended. -/
theorem run_bind_ok {x : EStateM ε σ α} {s s' : σ} {a : α} (h : x.run s = .ok a s')
    (f : α → EStateM ε σ β) : (x >>= f).run s = (f a).run s' := by
  rw [EStateM.run_bind, h]

theorem run_bind_error {x : EStateM ε σ α} {s s' : σ} {e : ε} (h : x.run s = .error e s')
    (f : α → EStateM ε σ β) : (x >>= f).run s = .error e s' := by
  rw [EStateM.run_bind, h]

/-- A computation that succeeds has succeeded in its first part. -/
theorem exists_of_run_bind_ok {x : EStateM ε σ α} {f : α → EStateM ε σ β} {s s' : σ} {b : β}
    (h : (x >>= f).run s = .ok b s') : ∃ a s₁, x.run s = .ok a s₁ ∧ (f a).run s₁ = .ok b s' := by
  cases hx : x.run s with
  | ok a s₁ => exact ⟨a, s₁, rfl, run_bind_ok hx f ▸ h⟩
  | error e s₁ =>
    rw [run_bind_error hx] at h
    cases h

/-- A computation that fails does so in its first part or after it. -/
theorem cases_of_run_bind_error {x : EStateM ε σ α} {f : α → EStateM ε σ β} {s s' : σ} {e : ε}
    (h : (x >>= f).run s = .error e s') :
    x.run s = .error e s' ∨ ∃ a s₁, x.run s = .ok a s₁ ∧ (f a).run s₁ = .error e s' := by
  cases hx : x.run s with
  | ok a s₁ => exact .inr ⟨a, s₁, rfl, run_bind_ok hx f ▸ h⟩
  | error e₁ s₁ =>
    rw [run_bind_error hx] at h
    cases h
    exact .inl rfl

theorem forM_eq_of_eq {xs : List α} {f g : α → EStateM ε σ Unit} (h : ∀ x ∈ xs, f x = g x) :
    forM xs f = forM xs g := by
  induction xs with
  | nil => rfl
  | cons x xs ih =>
    rw [List.forM_cons, List.forM_cons, h x (by simp), ih fun y hy => h y (List.mem_cons_of_mem _ hy)]

/-- Whatever error the computation ends in is one of `E`. -/
def RaisesOnly (E : ε → Prop) (x : EStateM ε σ α) : Prop := ∀ s e s', x.run s = .error e s' → E e

namespace RaisesOnly
variable {E : ε → Prop}

theorem mono {E' : ε → Prop} {x : EStateM ε σ α} (h : RaisesOnly E x) (hE : ∀ e, E e → E' e) : RaisesOnly E' x :=
  fun s e s' hx => hE e (h s e s' hx)

theorem pure (a : α) : RaisesOnly E (Pure.pure a : EStateM ε σ α) := by
  intro s e s' h
  cases h

theorem throw {e : ε} (he : E e) : RaisesOnly E (MonadExcept.throw e : EStateM ε σ α) := by
  intro s e' s' h
  cases h
  exact he

theorem get : RaisesOnly E (MonadState.get : EStateM ε σ σ) := by
  intro s e s' h
  cases h

theorem set (s : σ) : RaisesOnly E (MonadStateOf.set s : EStateM ε σ PUnit) := by
  intro s e s' h
  cases h

theorem modifyGet (f : σ → α × σ) : RaisesOnly E (MonadState.modifyGet f : EStateM ε σ α) := by
  intro s e s' h
  cases h

theorem bind {x : EStateM ε σ α} {f : α → EStateM ε σ β} (hx : RaisesOnly E x)
    (hf : ∀ a, RaisesOnly E (f a)) : RaisesOnly E (x >>= f) := by
  intro s e s' h
  rcases cases_of_run_bind_error h with hr | ⟨a, s₁, -, h⟩
  · exact hx s e s' hr
  · exact hf a s₁ e s' h

theorem map {x : EStateM ε σ α} (f : α → β) (hx : RaisesOnly E x) : RaisesOnly E (f <$> x) := by
  rw [← bind_pure_comp]
  exact hx.bind fun a => .pure (f a)

theorem forM {xs : List α} {f : α → EStateM ε σ PUnit} (hf : ∀ x ∈ xs, RaisesOnly E (f x)) :
    RaisesOnly E (xs.forM f) := by
  rw [List.forM_eq_forM]
  induction xs with
  | nil => exact .pure _
  | cons x xs ih =>
    rw [List.forM_cons]
    exact (hf x (by simp)).bind fun _ => ih fun y hy => hf y (List.mem_cons_of_mem _ hy)

theorem mapM {xs : List α} {f : α → EStateM ε σ β} (hf : ∀ x ∈ xs, RaisesOnly E (f x)) :
    RaisesOnly E (xs.mapM f) := by
  induction xs with
  | nil => exact .pure _
  | cons x xs ih =>
    rw [List.mapM_cons]
    exact (hf x (by simp)).bind fun _ => (ih fun y hy => hf y (List.mem_cons_of_mem _ hy)).bind fun _ => .pure _

end RaisesOnly

/-- Whether it succeeds or fails, the computation leaves a state behind that is related to the one it began in. -/
def Leaves (R : σ → σ → Prop) (x : EStateM ε σ α) : Prop := ∀ s, R s (endState (x.run s))

namespace Leaves
variable {R : σ → σ → Prop}

theorem modifyGet {f : σ → α × σ} (h : ∀ s, R s (f s).2) : Leaves R (MonadState.modifyGet f : EStateM ε σ α) := h

section
variable [IsPreorder σ R]

theorem pure (a : α) : Leaves R (Pure.pure a : EStateM ε σ α) := fun s => Std.Refl.refl s

theorem throw (e : ε) : Leaves R (MonadExcept.throw e : EStateM ε σ α) := fun s => Std.Refl.refl s

theorem get : Leaves R (MonadState.get : EStateM ε σ σ) := fun s => Std.Refl.refl s

theorem bind {x : EStateM ε σ α} {f : α → EStateM ε σ β} (hx : Leaves R x) (hf : ∀ a, Leaves R (f a)) :
    Leaves R (x >>= f) := by
  intro s
  have h := hx s
  cases hr : x.run s with
  | ok a s₁ =>
    rw [hr] at h
    rw [run_bind_ok hr]
    exact IsTrans.trans _ _ _ h (hf a s₁)
  | error e s₁ =>
    rw [hr] at h
    rw [run_bind_error hr]
    exact h

theorem map {x : EStateM ε σ α} (f : α → β) (hx : Leaves R x) : Leaves R (f <$> x) := by
  rw [← bind_pure_comp]
  exact hx.bind fun a => .pure (f a)

theorem forM {xs : List α} {f : α → EStateM ε σ PUnit} (hf : ∀ x ∈ xs, Leaves R (f x)) : Leaves R (xs.forM f) := by
  rw [List.forM_eq_forM]
  induction xs with
  | nil => exact .pure _
  | cons x xs ih =>
    rw [List.forM_cons]
    exact (hf x (by simp)).bind fun _ => ih fun y hy => hf y (List.mem_cons_of_mem _ hy)

theorem mapM {xs : List α} {f : α → EStateM ε σ β} (hf : ∀ x ∈ xs, Leaves R (f x)) : Leaves R (xs.mapM f) := by
  induction xs with
  | nil => exact .pure _
  | cons x xs ih =>
    rw [List.mapM_cons]
    exact (hf x (by simp)).bind fun _ => (ih fun y hy => hf y (List.mem_cons_of_mem _ hy)).bind fun _ => .pure _

end
end Leaves

def runSteps (exec : α → EStateM ε σ Unit) (steps : List α) (s : σ) : EStateM.Result ε σ Unit :=
  (steps.forM exec).run s

variable {exec : α → EStateM ε σ Unit}

@[simp] theorem runSteps_nil (s : σ) : runSteps exec [] s = .ok () s := rfl

theorem runSteps_cons (x : α) (xs : List α) (s : σ) :
    runSteps exec (x :: xs) s =
      match (exec x).run s with
      | .ok _ s => runSteps exec xs s
      | .error e s => .error e s := by
  simp only [runSteps, List.forM_eq_forM, List.forM_cons, EStateM.run_bind]
  cases (exec x).run s <;> rfl

theorem runSteps_append (xs ys : List α) (s : σ) :
    runSteps exec (xs ++ ys) s =
      match runSteps exec xs s with
      | .ok _ s => runSteps exec ys s
      | .error e s => .error e s := by
  induction xs generalizing s with
  | nil => rfl
  | cons x xs ih =>
    rw [List.cons_append, runSteps_cons, runSteps_cons]
    cases (exec x).run s with
    | ok _ s₁ => exact ih s₁
    | error e s₁ => rfl

theorem runSteps_singleton (x : α) (s : σ) : runSteps exec [x] s = (exec x).run s := by
  rw [runSteps_cons]
  cases (exec x).run s <;> rfl

theorem runSteps_cons_ok {x : α} {xs : List α} {s s' : σ} (h : runSteps exec (x :: xs) s = .ok () s') :
    ∃ s₁, (exec x).run s = .ok () s₁ ∧ runSteps exec xs s₁ = .ok () s' := by
  rw [runSteps_cons] at h
  cases hx : (exec x).run s with
  | ok _ s₁ => exact ⟨s₁, rfl, by simpa only [hx] using h⟩
  | error e s₁ => simp [hx] at h

/-- What every step keeps, a run keeps, also one that fails half-way. -/
theorem endState_runSteps {I : σ → Prop} {xs : List α}
    (hstep : ∀ x ∈ xs, ∀ s, I s → I (endState ((exec x).run s))) {s : σ} (h : I s) :
    I (endState (runSteps exec xs s)) := by
  induction xs generalizing s with
  | nil => exact h
  | cons x xs ih =>
    have hx := hstep x (by simp) s h
    rw [runSteps_cons]
    cases hr : (exec x).run s with
    | ok _ s₁ =>
      rw [hr] at hx
      exact ih (fun y hy => hstep y (by simp [hy])) hx
    | error e s₁ =>
      rw [hr] at hx
      exact hx

/-- Induction along a successful run. The invariant may speak of the steps that have been done, and a
step may use where in the list it stands and that the rest of the run succeeds. -/
theorem runSteps_induction {I : List α → σ → Prop} {xs : List α} {s s' : σ} (h0 : I [] s)
    (hstep : ∀ pre x post s₁ s₂, xs = pre ++ x :: post → I pre s₁ → (exec x).run s₁ = .ok () s₂ →
      runSteps exec post s₂ = .ok () s' → I (pre ++ [x]) s₂)
    (hrun : runSteps exec xs s = .ok () s') : I xs s' := by
  suffices h : ∀ post pre s₁, xs = pre ++ post → I pre s₁ → runSteps exec post s₁ = .ok () s' → I xs s'
    from h xs [] s rfl h0 hrun
  intro post
  induction post with
  | nil =>
    intro pre s₁ hxs hI hr
    cases hr
    simpa [hxs] using hI
  | cons x post ih =>
    intro pre s₁ hxs hI hr
    obtain ⟨s₂, hx, hpost⟩ := runSteps_cons_ok hr
    exact ih (pre ++ [x]) s₂ (by simpa using hxs) (hstep pre x post s₁ s₂ hxs hI hx hpost) hpost

/-- A run succeeds if every step does from a state that the steps before it may leave. -/
theorem exists_runSteps {I : List α → σ → Prop} {xs : List α} {s : σ} (h0 : I [] s)
    (hstep : ∀ pre x post s₁, xs = pre ++ x :: post → I pre s₁ →
      ∃ s₂, (exec x).run s₁ = .ok () s₂ ∧ I (pre ++ [x]) s₂) :
    ∃ s', runSteps exec xs s = .ok () s' ∧ I xs s' := by
  suffices h : ∀ post pre s₁, xs = pre ++ post → I pre s₁ → ∃ s', runSteps exec post s₁ = .ok () s' ∧ I xs s'
    from h xs [] s rfl h0
  intro post
  induction post with
  | nil => exact fun pre s₁ hxs hI => ⟨s₁, rfl, by simpa [hxs] using hI⟩
  | cons x post ih =>
    intro pre s₁ hxs hI
    obtain ⟨s₂, hx, hI₂⟩ := hstep pre x post s₁ hxs hI
    obtain ⟨s', hpost, hI'⟩ := ih (pre ++ [x]) s₂ (by simpa using hxs) hI₂
    exact ⟨s', by rw [runSteps_cons, hx]; exact hpost, hI'⟩

/-- A run goes through each of its steps. -/
theorem exists_step_of_mem {x : α} {xs : List α} {s s' : σ} (hx : x ∈ xs) (hrun : runSteps exec xs s = .ok () s') :
    ∃ pre post s₁ s₂, xs = pre ++ x :: post ∧ runSteps exec pre s = .ok () s₁ ∧ (exec x).run s₁ = .ok () s₂ ∧
      runSteps exec post s₂ = .ok () s' := by
  obtain ⟨pre, post, rfl⟩ := List.append_of_mem hx
  rw [runSteps_append] at hrun
  cases hpre : runSteps exec pre s with
  | error e s₁ =>
    rw [hpre] at hrun
    cases hrun
  | ok _ s₁ =>
    rw [hpre] at hrun
    obtain ⟨s₂, hs₂, hpost⟩ := runSteps_cons_ok hrun
    exact ⟨pre, post, s₁, s₂, rfl, hpre, hs₂, hpost⟩

/-- A run that fails does so at one of its steps. -/
theorem exists_step_of_error {xs : List α} {s s' : σ} {e : ε} (h : runSteps exec xs s = .error e s') :
    ∃ pre x post s₁, xs = pre ++ x :: post ∧ runSteps exec pre s = .ok () s₁ ∧
      (exec x).run s₁ = .error e s' := by
  induction xs generalizing s with
  | nil => cases h
  | cons x xs ih =>
    rw [runSteps_cons] at h
    cases hx : (exec x).run s with
    | error e' s₁ =>
      rw [hx] at h
      cases h
      exact ⟨[], x, xs, s, rfl, rfl, hx⟩
    | ok _ s₁ =>
      rw [hx] at h
      obtain ⟨pre, y, post, s₂, rfl, hpre, hy⟩ := ih h
      exact ⟨x :: pre, y, post, s₂, rfl, by rw [runSteps_cons, hx]; exact hpre, hy⟩

/-- Induction along a run that may fail: the invariant holds of the state that is left, for the steps
that have been done. -/
theorem endState_runSteps_induction {I : List α → σ → Prop} {J : σ → Prop} {xs : List α} {s : σ}
    (h0 : I [] s) (hend : ∀ pre s₁, I pre s₁ → J s₁)
    (hstep : ∀ pre x post s₁, xs = pre ++ x :: post → I pre s₁ →
      J (endState ((exec x).run s₁)) ∧
        ∀ s₂, (exec x).run s₁ = .ok () s₂ → I (pre ++ [x]) s₂) :
    J (endState (runSteps exec xs s)) := by
  suffices h : ∀ post pre s₁, xs = pre ++ post → I pre s₁ → J (endState (runSteps exec post s₁))
    from h xs [] s rfl h0
  intro post
  induction post with
  | nil =>
    intro pre s₁ _ hI
    exact hend pre s₁ hI
  | cons x post ih =>
    intro pre s₁ hxs hI
    obtain ⟨hJ, hI'⟩ := hstep pre x post s₁ hxs hI
    rw [runSteps_cons]
    cases hr : (exec x).run s₁ with
    | ok _ s₂ => exact ih (pre ++ [x]) s₂ (by simpa using hxs) (hI' s₂ hr)
    | error e s₂ =>
      rw [hr] at hJ
      exact hJ

end

section
variable {ε σ σ' α β : Type}

/-- Both computations succeed, in states that are related, or both end in the same error. -/
def Agree (R : σ → σ' → Prop) : EStateM.Result ε σ β → EStateM.Result ε σ' β → Prop
  | .ok _ s, .ok _ s' => R s s'
  | .error e _, .error e' _ => e = e'
  | _, _ => False

theorem Agree.of_ok {R : σ → σ' → Prop} {b : β} {s : σ} {x : EStateM.Result ε σ' β} (h : Agree R (.ok b s) x) :
    ∃ b' s', x = .ok b' s' ∧ R s s' := by
  cases x with
  | ok b' s' => exact ⟨b', s', rfl, h⟩
  | error => exact h.elim

theorem Agree.of_error {R : σ → σ' → Prop} {e : ε} {s : σ} {x : EStateM.Result ε σ' β} (h : Agree R (.error e s) x) :
    ∃ s', x = .error e s' := by
  cases x with
  | ok => exact h.elim
  | error e' s' => exact ⟨s', congrArg (EStateM.Result.error · s') (Eq.symm h)⟩

/-- Two runs over one list go together if their steps do. The relation may speak of the steps that have been
done. -/
theorem runSteps_agree {exec : α → EStateM ε σ Unit} {exec' : α → EStateM ε σ' Unit}
    {I : List α → σ → σ' → Prop} {xs : List α} {s : σ} {s' : σ'} (h0 : I [] s s')
    (hstep : ∀ pre x post s₁ s₁', xs = pre ++ x :: post → I pre s₁ s₁' →
      Agree (I (pre ++ [x])) ((exec x).run s₁) ((exec' x).run s₁')) :
    Agree (I xs) (runSteps exec xs s) (runSteps exec' xs s') := by
  suffices h : ∀ post pre s₁ s₁', xs = pre ++ post → I pre s₁ s₁' →
      Agree (I xs) (runSteps exec post s₁) (runSteps exec' post s₁') from h xs [] s s' rfl h0
  intro post
  induction post with
  | nil =>
    intro pre s₁ s₁' hxs hI
    rw [hxs, List.append_nil]
    exact hI
  | cons x post ih =>
    intro pre s₁ s₁' hxs hI
    have hx := hstep pre x post s₁ s₁' hxs hI
    rw [runSteps_cons, runSteps_cons]
    cases hr : (exec x).run s₁ with
    | ok _ s₂ =>
      cases hr' : (exec' x).run s₁' with
      | ok _ s₂' =>
        rw [hr, hr'] at hx
        exact ih (pre ++ [x]) s₂ s₂' (by simpa using hxs) hx
      | error e' s₂' =>
        rw [hr, hr'] at hx
        exact hx.elim
    | error e s₂ =>
      cases hr' : (exec' x).run s₁' with
      | ok _ s₂' =>
        rw [hr, hr'] at hx
        exact hx.elim
      | error e' s₂' =>
        rw [hr, hr'] at hx
        exact hx

end

section
variable {ε σ σ' α β γ : Type} {I J K : σ → Prop} {f : σ → σ'}

/-- Where `x` succeeds from a state that `I` holds of, `y` does from the image of the state, with the same
value, and leaves the image of what `x` leaves, which `J` holds of. -/
def Follows (I J : σ → Prop) (f : σ → σ') (x : EStateM ε σ α) (y : EStateM ε σ' α) : Prop :=
  ∀ s a s', I s → x.run s = .ok a s' → y.run (f s) = .ok a (f s') ∧ J s'

namespace Follows

theorem pure (a : α) : Follows I I f (Pure.pure a : EStateM ε σ α) (Pure.pure a) := by
  intro s b s' hs h
  cases h
  exact ⟨rfl, hs⟩

/-- What fails is followed by anything. -/
theorem throw (e : ε) (y : EStateM ε σ' α) :
    Follows I J f (MonadExcept.throw e : EStateM ε σ α) y := by
  intro s a s' _ h
  cases h

theorem bind {x : EStateM ε σ α} {y : EStateM ε σ' α} {k : α → EStateM ε σ β} {k' : α → EStateM ε σ' β}
    (hx : Follows I J f x y) (hk : ∀ a, Follows J K f (k a) (k' a)) : Follows I K f (x >>= k) (y >>= k') := by
  intro s b s' hs h
  obtain ⟨a, s₁, hr, h⟩ := exists_of_run_bind_ok h
  obtain ⟨hy, hs₁⟩ := hx s a s₁ hs hr
  rw [run_bind_ok hy]
  exact hk a s₁ b s' hs₁ h

theorem get_bind {k : σ → EStateM ε σ β} {k' : σ' → EStateM ε σ' β}
    (hk : ∀ s, I s → Follows I J f (k s) (k' (f s))) : Follows I J f (get >>= k) (get >>= k') := by
  intro s b s' hs h
  rw [run_bind_ok (EStateM.run_get ..)] at h ⊢
  exact hk s hs s b s' hs h

theorem modify {g : σ → σ} {g' : σ' → σ'} (hg : ∀ s, I s → g' (f s) = f (g s)) (hJ : ∀ s, I s → J (g s)) :
    Follows I J f (MonadState.modifyGet fun s => (PUnit.unit, g s) : EStateM ε σ PUnit)
      (MonadState.modifyGet fun s => (PUnit.unit, g' s)) := by
  intro s b s' hs h
  cases h
  exact ⟨congrArg (EStateM.Result.ok ()) (hg s hs), hJ s hs⟩

theorem mapM {xs : List γ} {k : γ → EStateM ε σ α} {k' : γ → EStateM ε σ' α}
    (hk : ∀ x ∈ xs, Follows I I f (k x) (k' x)) : Follows I I f (xs.mapM k) (xs.mapM k') := by
  induction xs with
  | nil => exact .pure _
  | cons x xs ih =>
    rw [List.mapM_cons, List.mapM_cons]
    exact (hk x (by simp)).bind fun _ => (ih fun y hy => hk y (List.mem_cons_of_mem _ hy)).bind fun _ => .pure _

theorem forM {xs : List γ} {k : γ → EStateM ε σ PUnit} {k' : γ → EStateM ε σ' PUnit}
    (hk : ∀ x ∈ xs, Follows I I f (k x) (k' x)) : Follows I I f (xs.forM k) (xs.forM k') := by
  rw [List.forM_eq_forM, List.forM_eq_forM]
  induction xs with
  | nil => exact .pure _
  | cons x xs ih =>
    rw [List.forM_cons, List.forM_cons]
    exact (hk x (by simp)).bind fun _ => ih fun y hy => hk y (List.mem_cons_of_mem _ hy)

end Follows

end

end NameResolution
