import NameResolution.Yaml.Scalar

/-!
# Layout of a YAML text

A text is a list of tokens, and its layout decides which. Indentation opens and ends block
collections, and a token that may be a key becomes one when a colon follows it. Whether it does is
known only later, so its key token is inserted at the place that is remembered for it.
-/
namespace NameResolution.Yaml

/-- What a YAML text consists of. Block collections are laid out by indentation, flow collections
stand between brackets. -/
inductive Token where
  | documentStart
  | documentEnd
  | blockList
  | blockMapping
  | blockEnd
  | flowList
  | flowListEnd
  | flowMapping
  | flowMappingEnd
  | comma
  | item
  | key
  | value
  | scalar ( isQuoted : Bool) (text : String)
deriving DecidableEq

namespace Token

/-- A mark between documents. -/
def mark? (ls : List Letter) : Option Token :=
  if atMark '-' ls then some documentStart
  else if atMark '.' ls then some documentEnd
  else none

/-- What a single letter means by itself. A dash does so before a gap, and so do question marks
and colons outside of brackets. -/
def indicator? (inFlow : Bool) (l : Letter) (rest : List Letter) : Option Token :=
  match l.char with
  | '[' => some flowList
  | ']' => some flowListEnd
  | '\x7b' => some flowMapping
  | '\x7d' => some flowMappingEnd
  | ',' => some comma
  | '-' => if atGap rest then some item else none
  | '?' => if inFlow || atGap rest then some key else none
  | ':' => if inFlow || atGap rest then some value else none
  | _ => none

end Token

/-- A token that is a key if a colon follows. -/
structure Candidate where
  /-- How many tokens stand before it. -/
  place : Nat
  line : Nat
  column : Nat
  /-- It stands where a block mapping goes on, so that it must be a key. -/
  isRequired : Bool

/-- How far behind the start of a key its colon may stand. -/
def maxKeyLength : Nat := 1024

/-- The candidate is a key if the colon `l` follows: on its line and not too far behind. -/
def Candidate.isKey (c : Candidate) (l : Letter) : Bool :=
  c.line == l.line && l.column ≤ c.column + maxKeyLength

/-- What the text so far determines. -/
structure Layout where
  tokens : Array Token := #[]
  /-- The columns of the open block collections, the innermost first. -/
  indents : List Nat := []
  /-- The candidate for a key in the innermost collection. -/
  candidate : Option Candidate := none
  /-- The candidates outside of each open bracket, the innermost first. -/
  outer : List (Option Candidate) := []
  /-- A key may start here. -/
  keyAllowed : Bool := true

namespace Layout

/-- Brackets are open; between them indentation has no meaning. -/
def inFlow (lay : Layout) : Bool := !lay.outer.isEmpty

def put (t : Token) (lay : Layout) : Layout := { lay with tokens := lay.tokens.push t }

def allowKey (allowed : Bool) (lay : Layout) : Layout := { lay with keyAllowed := allowed }

/-- Ends the block collections whose columns satisfy `p`, from the innermost on. -/
def endBlocks (p : Nat → Bool) (lay : Layout) : Layout :=
  if lay.inFlow then lay
  else
    { lay with
      tokens := lay.tokens ++ (lay.indents.takeWhile p).map fun _ => Token.blockEnd
      indents := lay.indents.dropWhile p }

/-- Opens a block collection before the token at `place`, if `column` is indented deeper. -/
def openBlock (t : Token) (place column : Nat) (lay : Layout) : Layout :=
  if lay.inFlow || lay.indents.head?.any (column ≤ ·) then lay
  else
    { lay with
      tokens := lay.tokens.insertIdxIfInBounds place t
      indents := column :: lay.indents }

/-- The candidate is no key. -/
def dropCandidate? (lay : Layout) : Option Layout :=
  if lay.candidate.any Candidate.isRequired then none else some { lay with candidate := none }

/-- The token that starts with `l` is the candidate from now on, if a key may start here. -/
def offer? (l : Letter) (lay : Layout) : Option Layout :=
  if lay.keyAllowed then
    lay.dropCandidate?.map fun lay =>
      let isRequired := !lay.inFlow && lay.indents.head? == some l.column
      { lay with candidate := some ⟨lay.tokens.size, l.line, l.column, isRequired⟩ }
  else some lay

/-- A bracket opens. All of what it encloses may be a key. -/
def openFlow? (t : Token) (l : Letter) (lay : Layout) : Option Layout :=
  (lay.offer? l).map fun lay =>
    { lay with candidate := none, outer := lay.candidate :: lay.outer, keyAllowed := true }.put t

/-- A bracket closes, and the candidate outside of it counts again. -/
def closeFlow? (t : Token) (lay : Layout) : Option Layout :=
  lay.dropCandidate?.map fun lay =>
    let lay := match lay.outer with
      | [] => lay
      | candidate :: outer => { lay with candidate, outer }
    (lay.allowKey false).put t

/-- A mark that may start an entry of a block collection at the column of `l`. -/
def enterBlock? (block : Token) (l : Letter) (lay : Layout) : Option Layout :=
  if lay.inFlow then some lay
  else if lay.keyAllowed then some (lay.openBlock block lay.tokens.size l.column)
  else none

/-- A dash starts an item, and a key may follow it. -/
def putItem? (l : Letter) (lay : Layout) : Option Layout := do
  let lay ← (← lay.enterBlock? .blockList l).dropCandidate?
  pure ((lay.allowKey true).put .item)

def putKey? (l : Letter) (lay : Layout) : Option Layout := do
  let lay ← (← lay.enterBlock? .blockMapping l).dropCandidate?
  pure ((lay.allowKey !lay.inFlow).put .key)

/-- A colon ends the key that the candidate is, or one that a question mark started. -/
def putValue? (l : Letter) (lay : Layout) : Option Layout :=
  match lay.candidate.filter (·.isKey l) with
  | some c =>
    let lay := { lay with tokens := lay.tokens.insertIdxIfInBounds c.place .key, candidate := none }
    some (((lay.openBlock .blockMapping c.place c.column).allowKey false).put .value)
  | none => do
    let lay ← (← lay.dropCandidate?).enterBlock? .blockMapping l
    pure ((lay.allowKey !lay.inFlow).put .value)

/-- A scalar without quotes may start with this letter, if it is no indicator. The others mean
something else in YAML. -/
def startsPlain (l : Letter) : Bool :=
  !l.isInGap && !"#&*!|>'\"%@\x60".toList.contains l.char

def putScalar ( isQuoted keyAllowed : Bool) (text : List Char) (lay : Layout) : Layout :=
  (lay.allowKey keyAllowed).put (.scalar isQuoted (String.ofList text))

/-- Reads the scalar that starts with `l`, which is no indicator. No key may start behind it on
the same line. -/
def readScalar? (l : Letter) (rest : List Letter) (lay : Layout) : Option (Layout × List Letter) :=
  match lay.offer? l with
  | none => none
  | some lay =>
    if l.char == '\'' then
      (singleQuoted? rest).map fun (s, rest) => (lay.putScalar true false s, rest)
    else if l.char == '"' then
      (doubleQuoted? rest).map fun (s, rest) => (lay.putScalar true false s, rest)
    else if startsPlain l then
      let indent := (lay.indents.head?.map (· + 1)).getD 0
      (plain? lay.inFlow indent rest).map fun (s, rest) =>
        let onNewLine := (gap rest).any fun m => isBreak m.char
        (lay.putScalar false onNewLine (l.char :: s), afterGap rest)
    else none

/-- A mark between documents, which ends all block collections. -/
def putMark? (t : Token) (lay : Layout) : Option Layout :=
  (lay.endBlocks fun _ => true).dropCandidate?.map fun lay => (lay.allowKey false).put t

def putIndicator? (t : Token) (l : Letter) (lay : Layout) : Option Layout :=
  match t with
  | .flowList | .flowMapping => lay.openFlow? t l
  | .flowListEnd | .flowMappingEnd => lay.closeFlow? t
  | .comma => lay.dropCandidate?.map fun lay => (lay.allowKey true).put t
  | .item => lay.putItem? l
  | .key => lay.putKey? l
  | .value => lay.putValue? l
  | _ => none

def read? (l : Letter) (rest : List Letter) (lay : Layout) : Option (Layout × List Letter) :=
  match Token.mark? (l :: rest) with
  | some t => (lay.putMark? t).map (·, rest.drop 2)
  | none =>
    match Token.indicator? lay.inFlow l rest with
    | some t => (lay.putIndicator? t l).map (·, rest)
    | none => lay.readScalar? l rest

theorem length_of_readScalar? {l : Letter} {ls rest : List Letter} {lay lay' : Layout}
    (h : lay.readScalar? l ls = some (lay', rest)) : rest.length ≤ ls.length := by
  unfold readScalar? at h
  repeat' split at h
  all_goals
    simp only [reduceCtorEq, Option.map_eq_some_iff, Prod.mk.injEq, Prod.exists] at h
  · obtain ⟨_, _, hs, -, rfl⟩ := h; exact length_of_singleQuoted? hs
  · obtain ⟨_, _, hs, -, rfl⟩ := h; exact length_of_doubleQuoted? hs
  · obtain ⟨_, _, hs, -, rfl⟩ := h
    exact Nat.le_trans (length_afterGap_le _) (length_of_plain? hs)

theorem length_of_read? {l : Letter} {ls rest : List Letter} {lay lay' : Layout}
    (h : lay.read? l ls = some (lay', rest)) : rest.length ≤ ls.length := by
  unfold read? at h
  split at h
  · simp only [Option.map_eq_some_iff, Prod.mk.injEq] at h
    obtain ⟨_, -, -, rfl⟩ := h
    simp
  · split at h
    · simp only [Option.map_eq_some_iff, Prod.mk.injEq] at h
      obtain ⟨_, -, -, rfl⟩ := h
      exact Nat.le_refl _
    · exact length_of_readScalar? h

def scan (lay : Layout) (ls : List Letter) : Option (Array Token) :=
  match _hs : skipSpace lay.inFlow false lay.keyAllowed ls with
  | (_, []) => (lay.endBlocks fun _ => true).dropCandidate?.map Layout.tokens
  | (keyAllowed, l :: rest) =>
    match _hr : ((lay.allowKey keyAllowed).endBlocks (l.column < ·)).read? l rest with
    | none => none
    | some (lay, rest) => lay.scan rest
termination_by ls.length
decreasing_by
  have := length_of_read? _hr
  have := _hs ▸ length_skipSpace_le _ _ _ ls
  simp only [List.length_cons] at this
  omega

end Layout

def Token.scan? (text : String) : Option (List Token) := do
  pure (← Layout.scan { } (← Letter.ofText? text)).toList

end NameResolution.Yaml
