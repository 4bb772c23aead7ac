import NameResolution.Config.Basic
import NameResolution.ResolveError
import NameResolution.Scope.Nesting
import NameResolution.Tree.Enclosing

/-!
# Registering declarations

One walk over the nesting of a tree opens its scopes and declares every declaration in the innermost
scope around it. A record also gets its implicit members: `this`, and for each record around it a field
through which its instance is reached. A walk that ends in an error leaves behind the implicit members
it has added so far.
-/
namespace NameResolution

/-- A declaration that was dropped, since the scope held the name already. -/
structure Duplicate where
  name : String
  first : NodeId
  repeated : NodeId
  scope : ScopeId
deriving DecidableEq

structure Registration where
  scopes : ScopeTree := {}
  duplicates : Array Duplicate := #[]
deriving DecidableEq

namespace Registration

/-- A walk in progress: the tree it walks over and what it has registered. -/
structure Progress where
  tree : Tree
  scopes : ScopeTree := {}
  duplicates : Array Duplicate := #[]

/-- A step of the walk. An error keeps the progress that was made. -/
abbrev Walk := EStateM ResolveError Progress

def fetch (id : NodeId) : Walk Node := do
  match (← get).tree.get? id with
  | some node => pure node
  | none => throw (.malformed id none .dangling)

/-- The node in a place must be of a kind that may stand there. -/
def checkSlot (owner : Node) (slot : Slot) : Walk Unit := do
  match slot.allowed with
  | none => pure ()
  | some _ =>
    let node ← fetch slot.child
    if slot.allows node.kind then pure ()
    else throw (.malformed slot.child owner.region (.misplaced owner.kind node.kind))

def openScope (kind : ScopeKind) (owner : NodeId) (parent : Option ScopeId) : Walk ScopeId :=
  modifyGet fun p =>
    let (id, scopes) := p.scopes.push kind owner parent
    (id, { p with scopes })

/-- Declares a node under a name, whatever the scope holds. -/
def enter (scope : ScopeId) (name : String) (id : NodeId) : Walk Unit :=
  modify fun p => { p with scopes := p.scopes.declare scope name id }

/-- The name that a node is declared under. A record with a qualified name goes by its last segment. -/
def declaredName (separator : String) (node : Node) : String :=
  if node.isRecord then Text.lastSegment separator node.name else node.name

/-- The declaration that already has a name for itself in a scope. -/
def holder? (p : Progress) (scope : ScopeId) (name : String) : Option NodeId :=
  (p.scopes.lookup scope name).find? fun d => (p.tree.kind? d).any NodeKind.isUniquePerScope

/-- Declares a node in a scope. Nameless nodes are not declared, and methods and functions may share a
name with anything. -/
def declare (config : Config) (id : NodeId) (node : Node) (scope : ScopeId) : Walk Unit := do
  let name := declaredName config.separator node
  if name = "" then pure ()
  else
    let p ← get
    match if node.kind.isUniquePerScope then holder? p scope name else none with
    | none => enter scope name id
    | some first =>
      match config.duplicates with
      | .fatal => throw (.duplicate name first id node.region)
      | .keepFirst => set { p with duplicates := p.duplicates.push ⟨name, first, id, scope⟩ }

/-- The field that stands for an implicit member: the one of an earlier walk, or a new one. -/
def implicitField (record : NodeId) (earlier : Option NodeId) (name typeName : String) : Walk NodeId :=
  match earlier with
  | some field => pure field
  | none => modifyGet fun p =>
    let (field, tree) := p.tree.addImplicitField record name typeName
    (field, { p with tree })

def addOuter (config : Config) (id : NodeId) (record : Record) (scope : ScopeId) (outer : NodeId) :
    Walk OuterInstance := do
  let outerName := (← get).tree.qualifiedName config.separator outer
  let name := Text.joinPath config.separator outerName "this"
  let earlier := (record.implicitOuter.find? (·.record == outer)).map OuterInstance.field
  let field ← implicitField id earlier name outerName
  enter scope name field
  pure ⟨outer, field⟩

/-- Adds the implicit members of a record and declares them in its scope. -/
def addImplicitMembers (config : Config) (id : NodeId) (record : Record) (qualified : String)
    (scope : ScopeId) : Walk Unit := do
  let this ← implicitField id record.implicitThis "this" qualified
  enter scope "this" this
  let outers ← ((← get).tree.enclosingRecords id).mapM (addOuter config id record scope)
  let filled (r : Record) : Record :=
    { r with
      enclosing := outers.head?.map OuterInstance.record
      implicitThis := some this
      implicitOuter := outers }
  modify fun p =>
    { p with tree := p.tree.modify id fun n =>
        match n.payload with
        | .recordDecl r => { n with payload := .recordDecl (filled r) }
        | _ => n }

/-- Opens the scope of a record, whose members must all be in place before it gets its implicit ones. -/
def enterRecord (config : Config) (id : NodeId) (node : Node) (record : Record)
    (scope : Option ScopeId) : Walk ScopeId := do
  let qualified := (← get).tree.qualifiedName config.separator id
  modify fun p => { p with scopes := p.scopes.nameRecord qualified id }
  let inner ← openScope .record id scope
  node.payload.slots.forM (checkSlot node)
  addImplicitMembers config id record qualified inner
  pure inner

/-- The scope for what is below a node: its own if it opens one, otherwise the one around it. -/
def innerScope (config : Config) (id : NodeId) (node : Node) (scope : Option ScopeId) :
    Walk (Option ScopeId) :=
  match node.payload with
  | .recordDecl record => some <$> enterRecord config id node record scope
  | payload =>
    match payload.opens? with
    | some kind => some <$> openScope kind id scope
    | none => pure scope

/-- Declares a node that is a declaration, if there is a scope around it. -/
def declareIn (config : Config) (id : NodeId) (node : Node) (scope : Option ScopeId) : Walk Unit :=
  match scope with
  | none => pure ()
  | some scope => if node.kind.isDeclaration then declare config id node scope else pure ()

/-- Registers a node and what nests in it, to the given depth. -/
def visit (config : Config) : Nat → NodeId → Option ScopeId → Walk Unit
  | 0, id, _ => throw (.malformed id none .nestedInItself)
  | depth + 1, id, scope => do
    let node ← fetch id
    declareIn config id node scope
    let inner ← innerScope config id node scope
    node.payload.slots.forM fun slot => do
      checkSlot node slot
      visit config depth slot.child inner

end Registration

/-- What a pass over a tree answers, and the tree it leaves behind. -/
structure Outcome (α : Type) where
  result : Except ResolveError α
  tree : Tree

namespace Tree

/-- How many children the nodes of a tree list, a node as often as it is listed. -/
def listings (t : Tree) : Nat := t.nodes.foldl (fun k n => k + n.children.length) 0

/-- More than the depth that a walk comes to, unless a node stands below itself. In the tree of a document a chain can
only go through the nodes of the tree and those that the pass itself adds, two for a name. In other trees a node may be
listed several times. A walk comes to it once on each way, and each time it may write out one more access below it; a
way is told by the listings that it goes along. -/
def depthLimit (t : Tree) : Nat := (1 <<< t.listings) + 2 * t.size + 2

/-- Registers the declarations at and below `root`, down to a limit. -/
def register (t : Tree) (config : Config) (root : NodeId) (limit : Nat := t.depthLimit) : Outcome Registration :=
  match (Registration.visit config limit root none).run { tree := t } with
  | .ok _ p => ⟨.ok ⟨p.scopes, p.duplicates⟩, p.tree⟩
  | .error e p => ⟨.error e, p.tree⟩

end Tree
end NameResolution
