import NameResolution.NodeKind
import NameResolution.Region
import NameResolution.Tree.Id

/-!
# Why a tree cannot be resolved

Each error ends the resolution of its tree and of no other.
-/
namespace NameResolution

inductive Fault where
  /-- The id points to no node. -/
  | dangling
  /-- A node of this kind may not stand where it does in its owner. -/
  | misplaced (owner kind : NodeKind)
  | rootKind
  | notRegistered
  | noCallee
  | noBase
  | noMember
  /-- The member half of an access is no plain reference. -/
  | memberKind
  /-- The walk has come to its limit, as it does where a node stands below itself. -/
  | nestedInItself
deriving DecidableEq

def Fault.text : Fault → String
  | dangling => "dangling node id"
  | misplaced owner kind => owner.name ++ " cannot contain a " ++ kind.name ++ " here"
  | rootKind => "root is not a translation unit"
  | notRegistered => "translation unit was not registered"
  | noCallee => "call expression without callee"
  | noBase => "member expression without base"
  | noMember => "member expression without member"
  | memberKind => "member of a member expression must be a plain reference"
  | nestedInItself => "node is nested inside itself"

inductive ResolveError where
  | malformed (node : NodeId) (region : Option Region) (fault : Fault)
  | duplicate (name : String) (first repeated : NodeId) (region : Option Region)
  | missingRoot
deriving DecidableEq

namespace ResolveError

def location : Option Region → String
  | some r => r.text
  | none => "unknown location"

def message : ResolveError → String
  | malformed node region fault =>
    "malformed tree at node " ++ node.text ++ " (" ++ location region ++ "): " ++ fault.text
  | duplicate name first repeated region =>
    "duplicate declaration of '" ++ name ++ "' at node " ++ repeated.text ++ " (" ++
      location region ++ "), first declared at node " ++ first.text
  | missingRoot => "AST has no translation unit root"

def node? : ResolveError → Option NodeId
  | malformed node _ _ => some node
  | duplicate _ _ repeated _ => some repeated
  | missingRoot => none

end ResolveError
end NameResolution
