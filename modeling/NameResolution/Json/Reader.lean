import NameResolution.Json.Token

/-!
# Reading JSON

The reader takes one token at a time. Containers that are still open wait on a stack, so the
nesting of a text is the length of that stack, and a text may not nest deeper than
`Reader.maxNesting`. Of an object whose members do not all matter, those that do not are
skipped: they have to be well formed, but they may nest without limit and denote nothing.
-/
namespace NameResolution.Json
namespace Reader

/-- An open container: its items so far, the last one first, and for an object the key whose value
is being read. -/
inductive Frame where
  | arr (items : List Json)
  | obj (members : List (String × Json)) (key : String)

inductive State where
  /-- A value. -/
  | value (stack : List Frame)
  /-- The first item of an array, or its end. -/
  | firstItem (stack : List Frame)
  /-- The first key of an object, or its end. -/
  | firstKey (stack : List Frame)
  /-- A further key. -/
  | key (members : List (String × Json)) (stack : List Frame)
  /-- The colon after a key. -/
  | colon (members : List (String × Json)) (key : String) (stack : List Frame)
  /-- A comma in an array, or its end. -/
  | afterItem (items : List Json) (stack : List Frame)
  /-- A comma in an object, or its end. -/
  | afterMember (members : List (String × Json)) (stack : List Frame)
  /-- Nothing more. -/
  | done (value : Json)

/-- The greatest number of containers that may be open at once. -/
def maxNesting : Nat := 127

/-- A value is complete: it goes to the container that waits for it. -/
def finish (v : Json) : List Frame → State
  | [] => .done v
  | .arr items :: stack => .afterItem (v :: items) stack
  | .obj members key :: stack => .afterMember ((key, v) :: members) stack

/-- The key of the outermost container, if that is an object of which a value is being read. -/
def outermostKey? (stack : List Frame) : Option String :=
  match stack.getLast? with
  | some (.obj _ key) => some key
  | _ => none

def State.stack : State → List Frame
  | value stack | firstItem stack | firstKey stack | key _ stack | colon _ _ stack
  | afterItem _ stack | afterMember _ stack => stack
  | done _ => []

/-- What is being read belongs to a member of the outermost object that does not matter. -/
def State.isSkipped (matters : String → Bool) (s : State) : Bool :=
  (outermostKey? s.stack).any fun key => !matters key

/-- The token with something in place of what it does not denote. -/
def patch : Token → Token
  | .str none => .str (some "")
  | .scalar none => .scalar (some .null)
  | t => t

/-- A value starts with the given token; the containers of `stack` are open. -/
def start (skip : Bool) (stack : List Frame) : Token → Option State
  | .openArr => if skip || stack.length < maxNesting then some (.firstItem stack) else none
  | .openObj => if skip || stack.length < maxNesting then some (.firstKey stack) else none
  | .str (some s) => some (finish (.str s) stack)
  | .scalar (some v) => some (finish v stack)
  | _ => none

/-- Takes one token; what is skipped may nest without limit. -/
def step (skip : Bool) : State → Token → Option State
  | .value stack, t => start skip stack t
  | .firstItem stack, .closeArr => some (finish (.arr []) stack)
  | .firstItem stack, t => start skip (.arr [] :: stack) t
  | .firstKey stack, .closeObj => some (finish (.obj []) stack)
  | .firstKey stack, .str (some k) => some (.colon [] k stack)
  | .key members stack, .str (some k) => some (.colon members k stack)
  | .colon members k stack, .colon => some (.value (.obj members k :: stack))
  | .afterItem items stack, .comma => some (.value (.arr items :: stack))
  | .afterItem items stack, .closeArr => some (finish (.arr items.reverse) stack)
  | .afterMember members stack, .comma => some (.key members stack)
  | .afterMember members stack, .closeObj => some (finish (.obj members.reverse) stack)
  | _, _ => none

/-- Takes one token of a text of which some members do not matter. -/
def stepAmong (matters : String → Bool) (s : State) (t : Token) : Option State :=
  if s.isSkipped matters then step true s (patch t) else step false s t

end Reader

/-- The value that a token list spells, if it spells exactly one. -/
def ofTokens? (step : Reader.State → Token → Option Reader.State) (ts : List Token) :
    Option Json := do
  match ← ts.foldlM step (.value []) with
  | .done v => some v
  | _ => none

def read? (text : String) : Option Json := do
  ofTokens? (Reader.step false) (← Token.scan text.toList)

/-- Reads a text as one JSON value. If that is an object, its members are those under keys that
matter, and the others are skipped. -/
def readAmong? (matters : String → Bool) (text : String) : Option Json := do
  match ← ofTokens? (Reader.stepAmong matters) (← Token.scan text.toList) with
  | .obj members => some (.obj (members.filter fun m => matters m.1))
  | v => some v

end NameResolution.Json
