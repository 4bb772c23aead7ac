/-!
# Node ids
-/
namespace NameResolution

/-- A node's place in its tree. An id may point nowhere. Ids are kept in 32 bits: trees are taken to have fewer than
`2 ^ 32` nodes, so that no place is cut off. -/
structure NodeId where
  index : Nat
deriving DecidableEq, Inhabited

namespace NodeId

/-- An id is shown with a hash sign before it. -/
def text (id : NodeId) : String := "#" ++ toString id.index

@[ext] theorem ext {a b : NodeId} (h : a.index = b.index) : a = b := by
  cases a; cases b; simp_all

end NodeId
end NameResolution
