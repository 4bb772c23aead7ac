import NameResolution.Proofs.Tree.Proper

/-!
# How binding changes a tree

A reference is bound in place, or a plain name is written out as an access with two new names below it. Both
are ways for a tree to grow at a node, and neither touches a declaration.
-/
namespace NameResolution

namespace Tree
variable {languages : Set String} {t t' : Tree} {id x : NodeId} {n m : Node}

/-- What grows at a reference leaves all declarations alone. -/
theorem GrowsAt.sameDeclarations {n' : Node} {new : List NodeId} (h : t.GrowsAt id n n' new t')
    (hn : n.kind.isReference = true) (hn' : n'.kind.isReference = true)
    (hnew : ∀ {f m}, f ∈ new → t'.get? f = some m → m.kind.isReference = true) :
    t.SameDeclarations t' := by
  intro d m hk
  constructor
  · intro hm
    rcases h.cases hm with ⟨rfl, rfl⟩ | ⟨-, hm'⟩ | ⟨-, hf⟩
    · simp [hk] at hn'
    · exact hm'
    · exact absurd (hnew hf hm) (by simp [hk])
  · intro hm
    refine h.kept ?_ hm
    rintro rfl
    rw [h.before] at hm
    cases hm
    simp [hk] at hn

theorem growsAt_bind (hn : t.get? id = some n) (r : Resolution) :
    t.GrowsAt id n { n with payload := n.payload.bind r } [] (t.bind id r) := by
  refine ⟨rfl, hn, ?_, ⟨rfl, rfl, rfl, rfl, .rebound (Payload.sameForm_bind _ r)⟩, ?_, ?_, ?_, ?_, ?_, .nil⟩
  · rw [get?_bind, if_pos rfl, hn, Option.map_some]
  · simp [Node.children]
  · intro j m hj hm
    rw [get?_bind, if_neg (Ne.symm hj), hm]
  · intro j m hj hm
    rw [get?_bind, if_neg (Ne.symm hj)] at hm
    exact .inl hm
  · simp
  · simp

theorem properIn_bind (ht : t.ProperIn languages) (hn : t.get? id = some n) (r : Resolution) :
    (t.bind id r).ProperIn languages := by
  have hg := growsAt_bind hn r
  refine hg.properIn ht ?_ ?_ ?_ ?_ (by simp)
  · rintro ⟨e, k, a, hk, hp, ha⟩
    obtain ⟨y, ρ, hy, hyr, -⟩ := ht.half hk hp ha
    rw [hn] at hy
    cases hy
    exact ⟨r, by rw [hyr]; rfl⟩
  · intro a m hp hm
    obtain ⟨a', hp', hm'⟩ : ∃ a', n.payload = .member a' ∧ a'.member = some m := by
      cases hpay : n.payload with
      | member a' =>
        rw [hpay] at hp
        cases hp
        exact ⟨a', rfl, hm⟩
      | _ =>
        rw [hpay] at hp
        cases hp
    obtain ⟨y, ρ, hy, hyr, hname⟩ := ht.half hn hp' hm'
    have hne : m ≠ id := by
      rintro rfl
      rw [hn] at hy
      cases hy
      rw [hp'] at hyr
      cases hyr
    exact ⟨y, ρ, hg.kept hne hy, hyr, hname⟩
  · intro q f hq hf
    exact ⟨q, by rw [hq]; rfl, hf⟩
  · intro q hq
    have hq' : n.payload = .recordDecl q := by
      cases hpay : n.payload with
      | recordDecl q' =>
        rw [hpay] at hq
        cases hq
        rfl
      | _ =>
        rw [hpay] at hq
        cases hq
    rcases ht.record hn hq' with hb | ⟨separator, hin, hs⟩
    · exact .inl hb
    · exact .inr ⟨separator, hin, hs.mono ht.toWellFormed hn hg.toExtends hg.keepsFields⟩

theorem sameDeclarations_bind (hn : t.get? id = some n) (hk : n.kind.isReference = true) (r : Resolution) :
    t.SameDeclarations (t.bind id r) :=
  (growsAt_bind hn r).sameDeclarations hk (by rw [Node.kind, Payload.kind_bind, ← Node.kind, hk]) (by simp)

/-- `t'` is `t` with the access `id` and its member half bound to `r`. -/
structure BindsAccess (languages : Set String) (t : Tree) (id member : NodeId) (n k : Node) (a : Access)
    (r : Resolution) (t' : Tree) : Prop where
  toExtends : t.Extends t'
  same : t.SameDeclarations t'
  proper : t'.ProperIn languages
  access : t'.get? id = some { n with payload := .member { a with resolution := r } }
  half : t'.get? member = some { k with payload := .reference r }
  kept : ∀ {x m}, x ≠ member → x ≠ id → t.get? x = some m → t'.get? x = some m
  only : ∀ {x m}, t'.get? x = some m → ∃ m', t.get? x = some m'

/-- The member half is bound first, then the access. -/
theorem bindsAccess {a : Access} {member : NodeId} {k : Node} (ht : t.ProperIn languages)
    (hn : t.get? id = some n) (hp : n.payload = .member a) (hm : a.member = some member)
    (hk : t.get? member = some k) (r : Resolution) :
    BindsAccess languages t id member n k a r ((t.bind member r).bind id r) := by
  obtain ⟨k', ρ, hk', hkρ, -⟩ := ht.half hn hp hm
  rw [hk] at hk'
  cases hk'
  have hid : id ≠ member := by
    rintro rfl
    rw [hn] at hk
    cases hk
    rw [hp] at hkρ
    cases hkρ
  have hg₁ := growsAt_bind hk r
  have hn₁ := hg₁.kept hid hn
  have hg₂ := growsAt_bind hn₁ r
  constructor
  case toExtends => exact hg₁.toExtends.trans hg₂.toExtends
  case same =>
    exact SameDeclarations.trans (sameDeclarations_bind hk (by rw [Node.kind, hkρ]; rfl) r)
      (sameDeclarations_bind hn₁ (by rw [Node.kind, hp]; rfl) r)
  case proper => exact properIn_bind (properIn_bind ht hk r) hn₁ r
  case access =>
    rw [hg₂.after, hp]
    rfl
  case half =>
    rw [hg₂.kept (Ne.symm hid) hg₁.after, hkρ]
    rfl
  case kept => exact fun hx hx' hm => hg₂.kept hx' (hg₁.kept hx hm)
  case only =>
    intro x m hx
    rcases hg₂.cases hx with ⟨rfl, -⟩ | ⟨-, hx'⟩ | ⟨-, hf⟩
    · exact ⟨n, hn⟩
    · rcases hg₁.cases hx' with ⟨rfl, -⟩ | ⟨-, hx''⟩ | ⟨-, hf⟩
      · exact ⟨k, hk⟩
      · exact ⟨m, hx''⟩
      · cases hf
    · cases hf

section
variable (base : String) (baseTo memberTo : Resolution)

theorem succ_size_ne_nextId (t : Tree) : (⟨t.size + 1⟩ : NodeId) ≠ t.nextId := by
  intro h
  have hindex : t.size + 1 = t.size := congrArg NodeId.index h
  omega

theorem ne_succ_size_of_get? (hm : t.get? x = some m) : x ≠ ⟨t.size + 1⟩ := by
  rintro rfl
  have hlt : t.size + 1 < t.size := lt_size_of_get? hm
  omega

/-- The nodes of an access that has been written out. -/
theorem nodes_of_writeOutAccess (hn : t.get? id = some n) :
    (t.writeOutAccess id base baseTo memberTo).get? t.nextId =
        some { id := t.nextId, name := base, region := n.region, parent := some id
               payload := .reference baseTo } ∧
      (t.writeOutAccess id base baseTo memberTo).get? ⟨t.size + 1⟩ =
        some { id := ⟨t.size + 1⟩, name := n.name, region := n.region, parent := some id
               payload := .reference memberTo } := by
  have hget := get?_writeOutAccess base baseTo memberTo hn
  have hid := Ne.symm (ne_nextId_of_get? hn)
  have hid' := Ne.symm (ne_succ_size_of_get? hn)
  exact ⟨by rw [hget, if_neg hid, if_pos rfl],
    by rw [hget, if_neg hid', if_neg (succ_size_ne_nextId t), if_pos rfl]⟩

theorem growsAt_writeOutAccess {ρ : Resolution} (hn : t.get? id = some n) (hp : n.payload = .reference ρ) :
    t.GrowsAt id n { n with payload := .member (t.writtenAccess memberTo) } [t.nextId, ⟨t.size + 1⟩]
      (t.writeOutAccess id base baseTo memberTo) := by
  have hget := get?_writeOutAccess base baseTo memberTo hn
  obtain ⟨hbase, hmember⟩ := nodes_of_writeOutAccess base baseTo memberTo hn
  refine ⟨root_writeOutAccess base baseTo memberTo hn, hn, by rw [hget, if_pos rfl],
    ⟨rfl, rfl, rfl, rfl, hp ▸ .writtenOut rfl⟩, ?_, ?_, ?_, ?_, ?_, ?_⟩
  · simp [Node.children, hp, Payload.children, writtenAccess]
  · intro j m hj hm
    rw [hget, if_neg hj, if_neg (ne_nextId_of_get? hm), if_neg (ne_succ_size_of_get? hm), hm]
  · intro j m hj hm
    rw [hget, if_neg hj] at hm
    by_cases h1 : j = t.nextId
    · exact .inr (by simp [h1])
    · by_cases h2 : j = ⟨t.size + 1⟩
      · exact .inr (by simp [h2])
      · rw [if_neg h1, if_neg h2] at hm
        exact .inl hm
  · intro f hf
    simp only [List.mem_cons, List.not_mem_nil, or_false] at hf
    rcases hf with rfl | rfl
    · exact ⟨_, hbase, rfl, rfl, rfl⟩
    · exact ⟨_, hmember, rfl, rfl, rfl⟩
  · intro f hf
    simp only [List.mem_cons, List.not_mem_nil, or_false] at hf
    rcases hf with rfl | rfl
    · exact get?_nextId t
    · exact get?_eq_none_iff.mpr (Nat.le_succ _)
  · simpa using Ne.symm (succ_size_ne_nextId t)

theorem reference_of_mem_new (hn : t.get? id = some n) {f : NodeId} (hf : f ∈ [t.nextId, ⟨t.size + 1⟩])
    (hm : (t.writeOutAccess id base baseTo memberTo).get? f = some m) :
    ∃ r, m.payload = .reference r := by
  obtain ⟨h1, h2⟩ := nodes_of_writeOutAccess base baseTo memberTo hn
  simp only [List.mem_cons, List.not_mem_nil, or_false] at hf
  rcases hf with rfl | rfl
  · rw [h1] at hm
    cases hm
    exact ⟨_, rfl⟩
  · rw [h2] at hm
    cases hm
    exact ⟨_, rfl⟩

theorem properIn_writeOutAccess {ρ : Resolution} (ht : t.ProperIn languages) (hn : t.get? id = some n)
    (hp : n.payload = .reference ρ) (hplain : ¬ t.IsMemberHalf id) :
    (t.writeOutAccess id base baseTo memberTo).ProperIn languages := by
  have hg := growsAt_writeOutAccess base baseTo memberTo hn hp
  obtain ⟨-, hmember⟩ := nodes_of_writeOutAccess base baseTo memberTo hn
  refine hg.properIn ht (fun hhalf => absurd hhalf hplain) ?_ ?_ ?_ ?_
  · intro a m ha hm
    cases ha
    cases hm
    exact ⟨_, memberTo, hmember, rfl, rfl⟩
  · intro q f hq
    rw [hp] at hq
    cases hq
  · intro q hq
    cases hq
  · intro f m hf hm
    exact .inl (reference_of_mem_new base baseTo memberTo hn hf hm)

theorem sameDeclarations_writeOutAccess {ρ : Resolution} (hn : t.get? id = some n)
    (hp : n.payload = .reference ρ) : t.SameDeclarations (t.writeOutAccess id base baseTo memberTo) := by
  refine (growsAt_writeOutAccess base baseTo memberTo hn hp).sameDeclarations (by rw [Node.kind, hp]; rfl)
    rfl ?_
  intro f m hf hm
  obtain ⟨r, hr⟩ := reference_of_mem_new base baseTo memberTo hn hf hm
  rw [Node.kind, hr]
  rfl

end

/-- Member halves stay member halves. -/
theorem Extends.isMemberHalf_of (h : t.Extends t') (hhalf : t.IsMemberHalf id) : t'.IsMemberHalf id := by
  obtain ⟨e, k, a, hk, hp, ha⟩ := hhalf
  obtain ⟨k', hk', hb⟩ := h.node hk
  have hbecomes := hb.payload
  rw [hp] at hbecomes
  cases hbecomes with
  | rebound h =>
    obtain ⟨r, hr⟩ := h.member
    exact ⟨e, k', _, hk', hr, ha⟩

/-- A node that was there is a member half only if it was one. -/
theorem Extends.isMemberHalf (h : t.Extends t') (ht : t.WellFormed) (ht' : t'.ProperIn languages)
    (hn : t.get? id = some n) (hhalf : t'.IsMemberHalf id) : t.IsMemberHalf id := by
  obtain ⟨e, k, a, m, hk, hka, ham, hm, hparent⟩ := ht'.parent_of_isMemberHalf hhalf
  obtain ⟨n', hn', hb⟩ := h.node hn
  rw [hm] at hn'
  cases hn'
  obtain ⟨p, hp, hchild⟩ := ht.child_of_parent hn (hb.parent.symm.trans hparent)
  obtain ⟨p', hp', hbp⟩ := h.node hp
  rw [hk] at hp'
  cases hp'
  have hbecomes := hbp.payload
  rw [hka] at hbecomes
  generalize hpp : p.payload = q at hbecomes
  cases hbecomes with
  | rebound hsame =>
    obtain ⟨r, rfl⟩ := Payload.SameForm.member (Eq.symm hsame)
    exact ⟨e, p, _, hp, hpp, ham⟩
  | writtenOut =>
    simp [Node.children, hpp, Payload.children] at hchild

end Tree
end NameResolution
