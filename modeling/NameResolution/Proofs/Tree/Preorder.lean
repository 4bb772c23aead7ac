import Mathlib.Logic.Relation
import NameResolution.Proofs.Tree.Flatten
import NameResolution.Tree.Builder

/-!
# The walk over a tree is a recursion

The walk that lists the nodes below an id keeps a stack and counts its steps. Without the count it may go on for ever,
and it does so if a node stands below itself. From an id below which none does, it ends, in no more steps than it is
given, with what a plain recursion lists: a node, and then what is listed for the ids below it, one after the other. Two
nodes may hold the same id, which is listed for both then, so the steps are not counted by the nodes but by how wide and
deep the tree is.
-/
namespace NameResolution.Tree
variable {t : Tree} {x y root : NodeId} {n : Node} {xs stack l : List NodeId} {k depth limit : Nat}

/-- The id is listed directly below a node. -/
def HeldBy (t : Tree) (c x : NodeId) : Prop := ∃ n, t.get? x = some n ∧ c ∈ n.children

/-- No node at or below the id stands below itself. -/
def AcyclicFrom (t : Tree) (root : NodeId) : Prop :=
  ∀ x, Relation.ReflTransGen t.HeldBy x root → ¬ Relation.TransGen t.HeldBy x x

/-- A node before those below it, subtree by subtree, by recursion along the ids below. An id that points nowhere adds
nothing. -/
def preorder (t : Tree) (x : NodeId) (h : Acc t.HeldBy x) : List NodeId :=
  match hx : t.get? x with
  | none => []
  | some n => x :: n.children.attach.flatMap fun c => t.preorder c.1 (h.inv ⟨n, hx, c.2⟩)
termination_by (⟨x, h⟩ : { x // Acc t.HeldBy x })
decreasing_by exact ⟨n, hx, c.2⟩

/-- The walk from a stack ends after `k` steps, with no limit to hold it up, and has listed `l` by then. -/
inductive Walks (t : Tree) : Nat → List NodeId → List NodeId → Prop
  | done : Walks t 0 [] []
  | nowhere {k : Nat} {x : NodeId} {stack l : List NodeId} (dangling : t.get? x = none) (rest : Walks t k stack l) :
      Walks t (k + 1) (x :: stack) l
  | node {k : Nat} {x : NodeId} {n : Node} {stack l : List NodeId} (found : t.get? x = some n)
      (rest : Walks t k (n.children ++ stack) l) : Walks t (k + 1) (x :: stack) (x :: l)

/-- The chains of ids from `x` downward come to an end after at most `depth` nodes. -/
def HasDepth (t : Tree) : Nat → NodeId → Prop
  | 0, x => t.get? x = none
  | depth + 1, x => ∀ n ∈ t.get? x, ∀ c ∈ n.children, t.HasDepth depth c

instance decidableHasDepth (t : Tree) (depth : Nat) (x : NodeId) : Decidable (t.HasDepth depth x) :=
  match depth with
  | 0 => inferInstanceAs (Decidable (t.get? x = none))
  | depth + 1 =>
    have (c : NodeId) : Decidable (t.HasDepth depth c) := decidableHasDepth t depth c
    inferInstanceAs (Decidable (∀ n ∈ t.get? x, ∀ c ∈ n.children, t.HasDepth depth c))

theorem preorder_of_get?_none (hx : t.get? x = none) (h : Acc t.HeldBy x) : t.preorder x h = [] := by
  rw [preorder]
  split
  · rfl
  · simp_all

theorem preorder_of_get? (hx : t.get? x = some n) (h : Acc t.HeldBy x) :
    t.preorder x h = x :: (n.children.pmap t.preorder fun _ hc => h.inv ⟨n, hx, hc⟩).flatten := by
  rw [preorder]
  split
  · simp_all
  · rename_i m hm
    rw [hx] at hm
    cases hm
    rw [List.pmap_eq_map_attach, List.flatMap_def]

/-- A limit that is not reached makes no difference. -/
theorem Walks.drain_eq (h : t.Walks k stack l) (hk : k ≤ limit) : t.drain limit stack = l := by
  induction h generalizing limit with
  | done => exact drain_nil t limit
  | nowhere hx _ ih =>
    obtain ⟨limit, rfl⟩ := Nat.exists_eq_add_of_le' (Nat.one_le_of_lt hk)
    rw [drain, hx]
    exact ih (Nat.le_of_succ_le_succ hk)
  | node hx _ ih =>
    obtain ⟨limit, rfl⟩ := Nat.exists_eq_add_of_le' (Nat.one_le_of_lt hk)
    rw [drain, hx]
    exact congrArg (_ :: ·) (ih (Nat.le_of_succ_le_succ hk))

theorem HasDepth.acc (h : t.HasDepth depth x) : Acc t.HeldBy x := by
  induction depth generalizing x with
  | zero =>
    refine ⟨x, ?_⟩
    rintro c ⟨n, hn, -⟩
    rw [HasDepth, hn] at h
    cases h
  | succ depth ih =>
    refine ⟨x, ?_⟩
    rintro c ⟨n, hn, hc⟩
    exact ih (h n hn c hc)

/-- An id is none of those on the way down to it. -/
theorem AcyclicFrom.nodup_cons (h : t.AcyclicFrom root) {path : List NodeId} (hnodup : path.Nodup)
    (hpath : ∀ p ∈ path, Relation.TransGen t.HeldBy x p) (hx : Relation.ReflTransGen t.HeldBy x root) :
    (x :: path).Nodup :=
  List.nodup_cons.mpr ⟨fun hmem => h x hx (hpath x hmem), hnodup⟩

/-- The nodes on the way down to an id are all different, so that there are at most as many as the tree has. -/
theorem AcyclicFrom.hasDepth_of_path (h : t.AcyclicFrom root) {path : List NodeId} (hnodup : path.Nodup)
    (hpath : ∀ p ∈ path, (∃ n, t.get? p = some n) ∧ Relation.TransGen t.HeldBy x p)
    (hx : Relation.ReflTransGen t.HeldBy x root) (hlength : path.length + depth = t.size) : t.HasDepth depth x := by
  induction depth generalizing x path with
  | zero =>
    rw [HasDepth]
    cases hn : t.get? x with
    | none => rfl
    | some n =>
      have hnodup' := h.nodup_cons hnodup (fun p hp => (hpath p hp).2) hx
      have hle := length_le_size hnodup' (List.forall_mem_cons.mpr ⟨⟨n, hn⟩, fun p hp => (hpath p hp).1⟩)
      rw [List.length_cons] at hle
      omega
  | succ depth ih =>
    intro n hn c hc
    have hheld : t.HeldBy c x := ⟨n, hn, hc⟩
    have hnodup' := h.nodup_cons hnodup (fun p hp => (hpath p hp).2) hx
    refine ih hnodup' ?_ (.head hheld hx) (by rw [List.length_cons]; omega)
    rw [List.forall_mem_cons]
    exact ⟨⟨⟨n, hn⟩, .single hheld⟩, fun p hp => ⟨(hpath p hp).1, .head hheld (hpath p hp).2⟩⟩

theorem acyclicFrom_iff_hasDepth : t.AcyclicFrom root ↔ t.HasDepth t.size root := by
  constructor
  · intro h
    exact h.hasDepth_of_path .nil (by simp) .refl (by simp)
  · intro h x hx hcycle
    have hacc : Acc (Relation.TransGen t.HeldBy) x := by
      rcases Relation.reflTransGen_iff_eq_or_transGen.mp hx with rfl | hbelow
      · exact h.acc.transGen
      · exact h.acc.transGen.inv hbelow
    induction hacc with
    | intro x _ ih => exact ih x hcycle hx hcycle

instance (t : Tree) (root : NodeId) : Decidable (t.AcyclicFrom root) := decidable_of_iff' _ acyclicFrom_iff_hasDepth

/-- Whatever else is on the stack, the walk lists `l` for the ids on top of it first, in `k` steps. -/
def ListsIn (t : Tree) (k : Nat) (xs l : List NodeId) : Prop :=
  ∀ {j : Nat} {stack m : List NodeId}, t.Walks j stack m → t.Walks (j + k) (xs ++ stack) (l ++ m)

namespace ListsIn
variable {k' : Nat} {ys l' : List NodeId}

theorem nil (t : Tree) : t.ListsIn 0 [] [] := fun hrest => hrest

theorem nowhere (hx : t.get? x = none) : t.ListsIn 1 [x] [] := fun hrest => .nowhere hx hrest

theorem node (hx : t.get? x = some n) (h : t.ListsIn k n.children l) : t.ListsIn (k + 1) [x] (x :: l) :=
  fun hrest => .node hx (h hrest)

theorem append (h : t.ListsIn k xs l) (h' : t.ListsIn k' ys l') : t.ListsIn (k + k') (xs ++ ys) (l ++ l') := by
  intro j stack m hrest
  have hwalks := h (h' hrest)
  rwa [List.append_assoc, List.append_assoc, Nat.add_comm k, ← Nat.add_assoc]

/-- If each of some ids takes at most `bound` steps, they take at most as often as many as they are. -/
theorem exists_pmap {p : NodeId → Prop} {f : ∀ c, p c → List NodeId} {bound : Nat} (hp : ∀ c ∈ xs, p c)
    (h : ∀ c ∈ xs, ∀ hc : p c, ∃ k ≤ bound, t.ListsIn k [c] (f c hc)) :
    ∃ k ≤ xs.length * bound, t.ListsIn k xs (xs.pmap f hp).flatten := by
  induction xs with
  | nil => exact ⟨0, by simp, nil t⟩
  | cons c cs ih =>
    rw [List.forall_mem_cons] at hp h
    obtain ⟨k, hk, hc⟩ := h.1 hp.1
    obtain ⟨k', hk', hcs⟩ := ih hp.2 h.2
    refine ⟨k + k', ?_, hc.append hcs⟩
    rw [List.length_cons, Nat.succ_mul]
    omega

end ListsIn

/-- The deeper and the wider the tree below an id, the more steps the walk may take for it. -/
theorem HasDepth.exists_listsIn (h : t.HasDepth depth x) (hacc : Acc t.HeldBy x) :
    ∃ k ≤ Nat.pow (t.width + 1) depth, t.ListsIn k [x] (t.preorder x hacc) := by
  simp only [Nat.pow_eq]
  have hpos : 1 ≤ (t.width + 1) ^ depth := Nat.one_le_pow _ _ (by omega)
  induction depth generalizing x with
  | zero =>
    rw [preorder_of_get?_none h]
    exact ⟨1, hpos, .nowhere h⟩
  | succ depth ih =>
    cases hn : t.get? x with
    | none =>
      rw [preorder_of_get?_none hn]
      exact ⟨1, hpos, .nowhere hn⟩
    | some n =>
      have hbelow : 1 ≤ (t.width + 1) ^ depth := Nat.one_le_pow _ _ (by omega)
      obtain ⟨k, hk, hlists⟩ := ListsIn.exists_pmap (fun c hc => hacc.inv ⟨n, hn, hc⟩)
        fun c hc hc' => ih (h n hn c hc) hc' hbelow
      rw [preorder_of_get? hn]
      refine ⟨k + 1, ?_, hlists.node hn⟩
      calc
        k + 1 ≤ n.children.length * (t.width + 1) ^ depth + (t.width + 1) ^ depth := Nat.add_le_add hk hbelow
        _ ≤ t.width * (t.width + 1) ^ depth + (t.width + 1) ^ depth :=
          Nat.add_le_add_right (Nat.mul_le_mul_right _ (length_children_le_width hn)) _
        _ = (t.width + 1) ^ (depth + 1) := by rw [Nat.pow_succ, Nat.mul_comm _ (t.width + 1), Nat.succ_mul]

/-- From an id below which no node stands below itself the walk ends by itself, in no more steps than it is given, and
lists what the recursion lists. What is found by kind or by name is found in that list, and one name is the first of
all. -/
theorem flatten_eq_preorder (h : t.AcyclicFrom root) :
    (∃ k ≤ t.drainLimit, t.Walks k [root] (t.flatten root)) ∧
      ∃ hacc : Acc t.HeldBy root, t.flatten root = t.preorder root hacc ∧
        ∀ kind name,
          t.findAll root kind = (t.preorder root hacc).filter (fun id => t.kind? id = some kind) ∧
            t.findAllNamed root kind name = (t.preorder root hacc).filter
              (fun id => t.kind? id = some kind ∧ t.name? id = some name) ∧
            t.findFirst? root kind name = (t.findAllNamed root kind name).head? ∧
            (t.findFirst? root kind name = none ↔ t.findAllNamed root kind name = []) := by
  have hdepth := acyclicFrom_iff_hasDepth.mp h
  have hacc := hdepth.acc
  obtain ⟨k, hk, hlists⟩ := hdepth.exists_listsIn hacc
  have hwalks : t.Walks k [root] (t.preorder root hacc) := by simpa using hlists .done
  have heq : t.flatten root = t.preorder root hacc := hwalks.drain_eq hk
  refine ⟨⟨k, hk, heq ▸ hwalks⟩, hacc, heq, fun kind name => ?_⟩
  have hfirst : t.findFirst? root kind name = (t.findAllNamed root kind name).head? := (List.head?_filter ..).symm
  refine ⟨?all, ?named, hfirst, by rw [hfirst, List.head?_eq_none_iff]⟩
  case all =>
    rw [← heq, findAll]
    exact List.filter_congr fun id _ => beq_eq_decide ..
  case named =>
    rw [← heq, findAllNamed]
    refine List.filter_congr fun id _ => ?_
    cases hn : t.get? id <;> simp [isNamed, kind?, name?, hn, beq_eq_decide]

/-- A sum of a name and itself, beside an id that points nowhere. -/
def shared : Tree :=
  let t := (({} : Tree).addReference "x").2
  let t := (t.addBinary "+" (some ⟨0⟩) (some ⟨0⟩)).2
  (t.addCompound [⟨1⟩, ⟨9⟩, ⟨0⟩]).2

theorem flatten_eq_preorder_shared :
    shared.AcyclicFrom ⟨2⟩ ∧ shared.flatten ⟨2⟩ = [⟨2⟩, ⟨1⟩, ⟨0⟩, ⟨0⟩, ⟨0⟩] ∧
      ∃ hacc : Acc shared.HeldBy ⟨2⟩, shared.preorder ⟨2⟩ hacc = [⟨2⟩, ⟨1⟩, ⟨0⟩, ⟨0⟩, ⟨0⟩] := by
  have hacyclic : shared.AcyclicFrom ⟨2⟩ := by decide
  obtain ⟨-, hacc, heq, -⟩ := flatten_eq_preorder hacyclic
  have hflatten : shared.flatten ⟨2⟩ = [⟨2⟩, ⟨1⟩, ⟨0⟩, ⟨0⟩, ⟨0⟩] := by decide
  exact ⟨hacyclic, hflatten, hacc, heq.symm.trans hflatten⟩

end NameResolution.Tree
