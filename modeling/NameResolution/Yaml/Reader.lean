import NameResolution.Yaml.Basic
import NameResolution.Yaml.Layout

/-!
# Reading YAML

Tokens are read as values by recursive descent. A value may be missing after a dash, a question
mark, a colon or the start of a document; it is absent if the next token can follow it. The depth
of the descent is bounded by the number of tokens, since at most three calls follow one another
that take none.
-/
namespace NameResolution.Yaml
namespace Reader

inductive Position where
  /-- None: the value stands between brackets. -/
  | flow
  /-- Indented ones. -/
  | block
  /-- Also a list that is indented no deeper than the mapping around it. -/
  | entry

/-- What follows the comma between two items; in front of the first one there is none. -/
def afterComma? ( isFirst : Bool) : List Token → Option (List Token)
  | .comma :: ts => some (if isFirst then .comma :: ts else ts)
  | ts => if isFirst then some ts else none

mutual

def value? : Nat → Position → List Token → Option (Yaml × List Token)
  | 0, _, _ => none
  | _ + 1, _, .scalar quoted text :: ts => some (.scalar quoted text, ts)
  | n + 1, _, .flowList :: ts => (flowItems? n true ts).map fun (vs, ts) => (.list vs, ts)
  | n + 1, _, .flowMapping :: ts => (flowEntries? n true ts).map fun (es, ts) => (.mapping es, ts)
  | _ + 1, .flow, _ => none
  | n + 1, _, .blockList :: ts => (blockItems? n ts).map fun (vs, ts) => (.list vs, ts)
  | n + 1, _, .blockMapping :: ts => (blockEntries? n ts).map fun (es, ts) => (.mapping es, ts)
  | n + 1, .entry, .item :: ts => (looseItems? n (.item :: ts)).map fun (vs, ts) => (.list vs, ts)
  | _ + 1, _, _ => none

/-- Reads one value, which is absent if the next token is one of `followers`. -/
def optional? (n : Nat) (position : Position) (followers : List Token) (ts : List Token) :
    Option (Yaml × List Token) :=
  match n with
  | 0 => none
  | n + 1 =>
    if ts.head?.any followers.contains then some (absent, ts) else value? n position ts

/-- Reads the value after a colon, if there is a colon. -/
def mapped? (n : Nat) (position : Position) (followers : List Token) (ts : List Token) :
    Option (Yaml × List Token) :=
  match n, ts with
  | 0, _ => none
  | n + 1, .value :: ts => optional? n position followers ts
  | _, ts => some (absent, ts)

/-- The items of an indented list up to its end. -/
def blockItems? : Nat → List Token → Option (List Yaml × List Token)
  | 0, _ => none
  | _ + 1, .blockEnd :: ts => some ([], ts)
  | n + 1, .item :: ts => do
    let (v, ts) ← optional? n .block [.item, .blockEnd] ts
    let (vs, ts) ← blockItems? n ts
    pure (v :: vs, ts)
  | _ + 1, _ => none

/-- The items of a list that is indented no deeper than the mapping around it. -/
def looseItems? : Nat → List Token → Option (List Yaml × List Token)
  | 0, _ => none
  | n + 1, .item :: ts => do
    let (v, ts) ← optional? n .block [.item, .key, .value, .blockEnd] ts
    let (vs, ts) ← looseItems? n ts
    pure (v :: vs, ts)
  | _ + 1, ts => some ([], ts)

/-- The entries of an indented mapping up to its end. -/
def blockEntries? : Nat → List Token → Option (List (Yaml × Yaml) × List Token)
  | 0, _ => none
  | _ + 1, .blockEnd :: ts => some ([], ts)
  | n + 1, .key :: ts => do
    let (k, ts) ← optional? n .entry [.key, .value, .blockEnd] ts
    let (v, ts) ← mapped? n .entry [.key, .value, .blockEnd] ts
    let (es, ts) ← blockEntries? n ts
    pure ((k, v) :: es, ts)
  | _ + 1, _ => none

/-- The items of a list between brackets. All but the first follow a comma. -/
def flowItems? (n : Nat) ( isFirst : Bool) (ts : List Token) : Option (List Yaml × List Token) :=
  match n, ts with
  | 0, _ => none
  | _ + 1, .flowListEnd :: ts => some ([], ts)
  | n + 1, ts => do
    match ← afterComma? isFirst ts with
    | .flowListEnd :: ts => pure ([], ts)
    | ts =>
      let (v, ts) ← flowItem? n ts
      let (vs, ts) ← flowItems? n false ts
      pure (v :: vs, ts)

/-- An item of a list between brackets; a key there makes a mapping of one entry. A mark that
stands in place of the key is taken with it. -/
def flowItem? : Nat → List Token → Option (Yaml × List Token)
  | 0, _ => none
  | n + 1, .key :: t :: ts => do
    let (k, ts) ←
      if [.value, .comma, .flowListEnd].contains t then some (absent, ts)
      else value? n .flow (t :: ts)
    let (v, ts) ← mapped? n .flow [.comma, .flowListEnd] ts
    pure (.mapping [(k, v)], ts)
  | n + 1, ts => value? n .flow ts

/-- The entries of a mapping between brackets. All but the first follow a comma, and a value
without a key token is a key without a value. -/
def flowEntries? (n : Nat) ( isFirst : Bool) (ts : List Token) :
    Option (List (Yaml × Yaml) × List Token) :=
  match n, ts with
  | 0, _ => none
  | _ + 1, .flowMappingEnd :: ts => some ([], ts)
  | n + 1, ts => do
    match ← afterComma? isFirst ts with
    | .flowMappingEnd :: ts => pure ([], ts)
    | .key :: ts =>
      let (k, ts) ← optional? n .flow [.value, .comma, .flowMappingEnd] ts
      let (v, ts) ← mapped? n .flow [.comma, .flowMappingEnd] ts
      let (es, ts) ← flowEntries? n false ts
      pure ((k, v) :: es, ts)
    | ts =>
      let (k, ts) ← value? n .flow ts
      let (es, ts) ← flowEntries? n false ts
      pure ((k, absent) :: es, ts)

end

/-- Reads a document. Nothing but its mark is an absent value. -/
def document? (ts : List Token) : Option (Yaml × List Token) :=
  let limit := 4 * (ts.length + 1)
  match ts with
  | [] => some (absent, [])
  | .documentStart :: ts =>
    if ts.head?.all [.documentStart, .documentEnd].contains then some (absent, ts)
    else value? limit .block ts
  | ts => value? limit .block ts

end Reader

/-- Reads a text as one document; an empty text is an absent value. -/
def read? (text : String) : Option Yaml := do
  let (v, ts) ← Reader.document? (← Token.scan? text)
  if ts.all (· == .documentEnd) then some v else none

end NameResolution.Yaml
