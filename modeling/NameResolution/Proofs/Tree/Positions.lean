import Mathlib.Data.List.Sort
import Mathlib.Data.Prod.Lex
import Mathlib.Order.WithBot
import NameResolution.Proofs.Tree.Flatten
import NameResolution.Tree.Builder

/-!
# The order of positions

Ids are compared by the positions of their nodes, those without one coming last, and by their places in the tree where
that leaves a tie. The comparison is that of a linear order, `placeOf`, in which no two ids have the same place: so
there is one way only to sort given ids.
-/
namespace NameResolution.Tree
variable {t : Tree} {a b : NodeId} {xs ys : List NodeId}

/-- What one id comes before another by: its line, its column or its own place, or since only it has a position. -/
inductive ComesBefore (t : Tree) (a b : NodeId) : Prop
  | line {p q} (left : t.position? a = some p) (right : t.position? b = some q) (lt : p.1 < q.1)
  | column {p q} (left : t.position? a = some p) (right : t.position? b = some q) (line : p.1 = q.1) (lt : p.2 < q.2)
  | index (position : t.position? a = t.position? b) (lt : a.index < b.index)
  | positioned {p} (left : t.position? a = some p) (right : t.position? b = none)

/-- The place of an id among all ids. A missing position counts as the greatest. -/
def placeOf (t : Tree) (id : NodeId) : WithTop (Nat ×ₗ Nat) ×ₗ Nat :=
  match t.position? id with
  | some p => toLex ((toLex p : Nat ×ₗ Nat), id.index)
  | none => toLex (⊤, id.index)

theorem placeOf_injective (t : Tree) : Function.Injective t.placeOf := by
  intro a b h
  apply NodeId.ext
  have hindex := congrArg (fun place => (ofLex place).2) h
  unfold placeOf at hindex
  split at hindex <;> split at hindex <;> exact hindex

theorem placeOf_lt_iff : t.placeOf a < t.placeOf b ↔ t.ComesBefore a b := by
  unfold placeOf
  constructor
  · intro h
    cases ha : t.position? a with
    | none =>
      cases hb : t.position? b with
      | none => exact .index (ha.trans hb.symm) (by simpa [ha, hb, Prod.Lex.toLex_lt_toLex] using h)
      | some q => simp [ha, hb, Prod.Lex.toLex_lt_toLex] at h
    | some p =>
      cases hb : t.position? b with
      | none => exact .positioned ha hb
      | some q =>
        simp only [ha, hb, Prod.Lex.toLex_lt_toLex, WithTop.coe_lt_coe, WithTop.coe_inj, toLex_inj] at h
        rcases h with (hline | ⟨hline, hcolumn⟩) | ⟨hsame, hindex⟩
        · exact .line ha hb hline
        · exact .column ha hb hline hcolumn
        · exact .index (by rw [ha, hb, hsame]) hindex
  · intro h
    cases h with
    | line left right lt => simp [left, right, lt, Prod.Lex.toLex_lt_toLex]
    | column left right line lt => simp [left, right, line, lt, Prod.Lex.toLex_lt_toLex]
    | index position lt =>
      rw [position]
      split <;> simp [lt, Prod.Lex.toLex_lt_toLex]
    | positioned left right => simp [left, right, Prod.Lex.toLex_lt_toLex]

theorem comparePositions_eq_lt_iff : t.comparePositions a b = .lt ↔ t.placeOf a < t.placeOf b := by
  unfold comparePositions placeOf
  cases t.position? a <;> cases t.position? b <;>
    simp [Ordering.then_eq_lt, Ordering.then_eq_eq, Prod.Lex.toLex_lt_toLex, Nat.compare_eq_lt, Prod.ext_iff]

theorem swap_comparePositions (t : Tree) (a b : NodeId) : (t.comparePositions a b).swap = t.comparePositions b a := by
  unfold comparePositions
  cases t.position? a <;> cases t.position? b <;> simp [Ordering.swap_then, Nat.compare_swap]

theorem isLE_comparePositions_iff : (t.comparePositions a b).isLE ↔ t.placeOf a ≤ t.placeOf b := by
  have hgt : t.comparePositions a b = .gt ↔ t.placeOf b < t.placeOf a := by
    rw [← comparePositions_eq_lt_iff, ← swap_comparePositions, Ordering.swap_eq_gt]
  rw [Ordering.isLE_iff_ne_gt, hgt, not_lt]

/-- The comparison tells all ids apart. -/
theorem comparePositions_eq_eq_iff : t.comparePositions a b = .eq ↔ a = b := by
  constructor
  · intro h
    have hle : t.placeOf a ≤ t.placeOf b := isLE_comparePositions_iff.mp (by rw [h]; rfl)
    have hge : t.placeOf b ≤ t.placeOf a :=
      isLE_comparePositions_iff.mp (by rw [← swap_comparePositions, h]; rfl)
    exact t.placeOf_injective (le_antisymm hle hge)
  · rintro rfl
    cases h : t.comparePositions a a with
    | eq => rfl
    | lt => exact absurd (comparePositions_eq_lt_iff.mp h) (lt_irrefl _)
    | gt =>
      rw [← swap_comparePositions, Ordering.swap_eq_gt] at h
      exact absurd (comparePositions_eq_lt_iff.mp h) (lt_irrefl _)

theorem comparePositions_trans {c : NodeId} (h : (t.comparePositions a b).isLE) (h' : (t.comparePositions b c).isLE) :
    (t.comparePositions a c).isLE :=
  isLE_comparePositions_iff.mpr ((isLE_comparePositions_iff.mp h).trans (isLE_comparePositions_iff.mp h'))

theorem comparePositions_total (t : Tree) (a b : NodeId) :
    (t.comparePositions a b).isLE ∨ (t.comparePositions b a).isLE := by
  rw [isLE_comparePositions_iff, isLE_comparePositions_iff]
  exact le_total _ _

/-- What is sorted stands in the order of its places. -/
theorem sortByPosition_pairwise (t : Tree) (xs : List NodeId) :
    (t.sortByPosition xs).Pairwise fun a b => t.placeOf a ≤ t.placeOf b := by
  have hsorted : (t.sortByPosition xs).Pairwise fun a b => (t.comparePositions a b).isLE := by
    apply List.pairwise_mergeSort
    · exact fun a b c => comparePositions_trans
    · exact fun a b => (Bool.or_eq_true _ _).mpr (t.comparePositions_total a b)
  exact hsorted.imp isLE_comparePositions_iff.mp

/-- There is but one list of given ids in the order of their places. -/
theorem sortByPosition_eq_of_perm (h : xs.Perm ys) : t.sortByPosition xs = t.sortByPosition ys := by
  have hperm : (t.sortByPosition xs).Perm (t.sortByPosition ys) :=
    (t.sortByPosition_perm xs).trans (h.trans (t.sortByPosition_perm ys).symm)
  refine List.Perm.eq_of_pairwise ?_ (t.sortByPosition_pairwise xs) (t.sortByPosition_pairwise ys) hperm
  exact fun a b _ _ hle hge => t.placeOf_injective (le_antisymm hle hge)

/-- The comparison of ids is a total order that tells all ids apart: by line, by column and by id, ids without a
position last. To sort by it gives the one list of the given ids in that order, however they were given. -/
theorem sortByPosition_canonical (t : Tree) :
    (∀ a b, t.comparePositions b a = (t.comparePositions a b).swap) ∧
      (∀ a b, t.comparePositions a b = .eq ↔ a = b) ∧
      (∀ a b c, (t.comparePositions a b).isLE → (t.comparePositions b c).isLE → (t.comparePositions a c).isLE) ∧
      (∀ a b, (t.comparePositions a b).isLE ∨ (t.comparePositions b a).isLE) ∧
      (∀ a b, t.comparePositions a b = .lt ↔ t.ComesBefore a b) ∧
      ∀ xs ys : List NodeId, xs.Perm ys →
        t.sortByPosition xs = t.sortByPosition ys ∧ (t.sortByPosition xs).Perm xs ∧
          (t.sortByPosition xs).Pairwise fun a b => t.ComesBefore a b ∨ a = b := by
  refine ⟨fun a b => (t.swap_comparePositions a b).symm, fun _ _ => comparePositions_eq_eq_iff,
    fun _ _ _ => comparePositions_trans, t.comparePositions_total,
    fun _ _ => comparePositions_eq_lt_iff.trans placeOf_lt_iff, fun xs ys h => ?_⟩
  refine ⟨sortByPosition_eq_of_perm h, t.sortByPosition_perm xs, (t.sortByPosition_pairwise xs).imp fun hle => ?_⟩
  rcases hle.lt_or_eq with hlt | heq
  · exact .inl (placeOf_lt_iff.mp hlt)
  · exact .inr (t.placeOf_injective heq)

/-- Two names on one line, the second one first, and a name that stands nowhere. -/
def scattered : Tree :=
  let t := (({} : Tree).addReference "b").2.setRegion ⟨0⟩ (.point 3 9)
  let t := (t.addReference "a").2.setRegion ⟨1⟩ (.point 3 2)
  (t.addReference "c").2

/-- An id that points nowhere is sorted in after the node that stands nowhere. -/
theorem sortByPosition_canonical_scattered :
    ([⟨9⟩, ⟨2⟩, ⟨0⟩, ⟨1⟩] : List NodeId).Perm [⟨1⟩, ⟨0⟩, ⟨2⟩, ⟨9⟩] ∧
      scattered.sortByPosition [⟨9⟩, ⟨2⟩, ⟨0⟩, ⟨1⟩] = [⟨1⟩, ⟨0⟩, ⟨2⟩, ⟨9⟩] := by
  have hperm : ([⟨9⟩, ⟨2⟩, ⟨0⟩, ⟨1⟩] : List NodeId).Perm [⟨1⟩, ⟨0⟩, ⟨2⟩, ⟨9⟩] := by decide
  have hsorted : scattered.sortByPosition [⟨1⟩, ⟨0⟩, ⟨2⟩, ⟨9⟩] = [⟨1⟩, ⟨0⟩, ⟨2⟩, ⟨9⟩] :=
    List.mergeSort_of_pairwise (by decide)
  exact ⟨hperm, ((sortByPosition_canonical scattered).2.2.2.2.2 _ _ hperm).1.trans hsorted⟩

end NameResolution.Tree
