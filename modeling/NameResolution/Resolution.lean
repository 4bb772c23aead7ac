import NameResolution.Tree.Id

/-!
# Resolutions

What a reference is bound to, and the policies that settle a list of candidates.
-/
namespace NameResolution

inductive Resolution where
  | unresolved
  | single (declaration : NodeId)
  | ambiguous (declarations : List NodeId)
deriving DecidableEq, Inhabited

namespace Resolution

def isResolved : Resolution → Bool
  | unresolved => false
  | _ => true

def isAmbiguous : Resolution → Bool
  | ambiguous _ => true
  | _ => false

/-- The declaration that is denoted beyond doubt. -/
def single? : Resolution → Option NodeId
  | single d => some d
  | _ => none

/-- All declarations that may be meant, in order. -/
def candidates : Resolution → List NodeId
  | unresolved => []
  | single d => [d]
  | ambiguous ds => ds

def refersTo (r : Resolution) (d : NodeId) : Bool := r.candidates.contains d

theorem single?_eq_some {r : Resolution} {d : NodeId} : r.single? = some d ↔ r = single d := by
  cases r <;> simp [single?]

end Resolution

inductive AmbiguityPolicy where
  | keepAll
  | first
  | reject
deriving DecidableEq, Inhabited

namespace AmbiguityPolicy

def name : AmbiguityPolicy → String
  | keepAll => "keep-all"
  | first => "first"
  | reject => "reject"

def all : List AmbiguityPolicy := [keepAll, first, reject]

def ofName? (s : String) : Option AmbiguityPolicy := all.find? (·.name == s)

def apply (policy : AmbiguityPolicy) : List NodeId → Resolution
  | [] => .unresolved
  | [d] => .single d
  | d :: ds =>
    match policy with
    | keepAll => .ambiguous (d :: ds)
    | first => .single d
    | reject => .unresolved

@[simp] theorem apply_nil (p : AmbiguityPolicy) : p.apply [] = .unresolved := rfl

@[simp] theorem apply_singleton (p : AmbiguityPolicy) (d : NodeId) : p.apply [d] = .single d := rfl

/-- Keeping all candidates loses none. -/
theorem candidates_apply_keepAll (ds : List NodeId) : (keepAll.apply ds).candidates = ds := by
  match ds with
  | [] | [_] | _ :: _ :: _ => rfl

/-- No policy brings a candidate in. -/
theorem mem_of_mem_candidates_apply {p : AmbiguityPolicy} {ds : List NodeId} {d : NodeId}
    (h : d ∈ (p.apply ds).candidates) : d ∈ ds := by
  match ds, p with
  | [], _ => simp [Resolution.candidates] at h
  | [_], _ => simpa [Resolution.candidates] using h
  | _ :: _ :: _, keepAll => simpa [apply, Resolution.candidates] using h
  | _ :: _ :: _, first =>
    simp only [apply, Resolution.candidates, List.mem_singleton] at h
    simp [h]
  | _ :: _ :: _, reject => simp [apply, Resolution.candidates] at h

end AmbiguityPolicy
end NameResolution
