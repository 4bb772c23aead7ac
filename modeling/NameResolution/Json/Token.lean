import NameResolution.Json.Number
import NameResolution.Text.Hex

/-!
# Tokens of a JSON text

Brackets, marks, strings and scalars. Every token is read off the front of the text, so what is
left is always shorter. A token may be well formed and denote nothing: a string with half of a
surrogate pair, a number beyond the finite doubles.
-/
namespace NameResolution.Json

inductive Token where
  | openArr
  | closeArr
  | openObj
  | closeObj
  | comma
  | colon
  | str (value : Option String)
  | scalar (value : Option Json)

namespace Token

def isBlank (c : Char) : Bool := c == ' ' || c == '\n' || c == '\t' || c == '\r'

def isNumeric (c : Char) : Bool :=
  c.isDigit || c == '-' || c == '+' || c == '.' || c == 'e' || c == 'E'

/-- The character that a letter after a backslash stands for. -/
def escaped? : Char → Option Char
  | '"' => some '"'
  | '\\' => some '\\'
  | '/' => some '/'
  | 'b' => some '\x08'
  | 'f' => some '\x0c'
  | 'n' => some '\n'
  | 'r' => some '\r'
  | 't' => some '\t'
  | _ => none

def isHighSurrogate (n : Nat) : Bool := 0xD800 ≤ n && n ≤ 0xDBFF

def isLowSurrogate (n : Nat) : Bool := 0xDC00 ≤ n && n ≤ 0xDFFF

/-- The code point of a surrogate pair. -/
def combine (high low : Nat) : Nat := 0x10000 + (high - 0xD800) * 0x400 + (low - 0xDC00)

/-- A part of a string: a character, or a 16-bit unit that is written by its number. -/
inductive Piece where
  | char (c : Char)
  | unit (n : Nat)

/-- The characters that pieces denote. Surrogates come in pairs, and half of a pair denotes
nothing. -/
def Piece.toChars? : List Piece → Option (List Char)
  | [] => some []
  | .char c :: rest => (toChars? rest).map (c :: ·)
  | .unit high :: .unit low :: rest =>
    if isHighSurrogate high then
      if isLowSurrogate low then (toChars? rest).map (Char.ofNat (combine high low) :: ·) else none
    else if isLowSurrogate high then none
    else (toChars? (.unit low :: rest)).map (Char.ofNat high :: ·)
  | .unit n :: rest =>
    if isHighSurrogate n || isLowSurrogate n then none
    else (toChars? rest).map (Char.ofNat n :: ·)

/-- Reads the rest of a string after its opening quote. Control characters must be escaped. -/
def stringBody? : List Char → Option (List Piece × List Char)
  | [] => none
  | '"' :: rest => some ([], rest)
  | '\\' :: 'u' :: a :: b :: c :: d :: rest =>
    match Text.hex? [a, b, c, d] with
    | none => none
    | some n => (stringBody? rest).map fun (s, r) => (.unit n :: s, r)
  | '\\' :: c :: rest =>
    match escaped? c with
    | none => none
    | some c => (stringBody? rest).map fun (s, r) => (.char c :: s, r)
  | c :: rest =>
    if c.toNat < 0x20 || c == '\\' then none
    else (stringBody? rest).map fun (s, r) => (.char c :: s, r)

theorem length_of_stringBody? {cs rest : List Char} {s : List Piece}
    (h : stringBody? cs = some (s, rest)) : rest.length < cs.length := by
  fun_induction stringBody? cs generalizing s with
  | case1 => simp at h
  | case2 => simp_all
  | case3 | case5 | case7 => simp at h
  | case4 | case6 | case8 =>
    rename_i ih
    simp only [Option.map_eq_some_iff, Prod.mk.injEq] at h
    obtain ⟨⟨s', r'⟩, hs, -, rfl⟩ := h
    have shorter : r'.length < _ := ih hs
    simp only [List.length_cons]
    omega

/-- The scalar that a word names. -/
def word? (cs : List Char) : Option Json :=
  if cs = "null".toList then some .null
  else if cs = "true".toList then some (.bool true)
  else if cs = "false".toList then some (.bool false)
  else none

theorem length_dropWhile_le (p : Char → Bool) (cs : List Char) :
    (cs.dropWhile p).length ≤ cs.length :=
  (List.dropWhile_suffix p).length_le

/-- Reads the token that starts with `c` and goes on in `cs`. -/
def read? (c : Char) (cs : List Char) : Option (Token × List Char) :=
  if c == '[' then some (openArr, cs)
  else if c == ']' then some (closeArr, cs)
  else if c == '\x7b' then some (openObj, cs)
  else if c == '\x7d' then some (closeObj, cs)
  else if c == ',' then some (comma, cs)
  else if c == ':' then some (colon, cs)
  else if c == '"' then
    (stringBody? cs).map fun (s, rest) => (str ((Piece.toChars? s).map String.ofList), rest)
  else if c == '-' || c.isDigit then
    (Number.Numeral.ofChars? (c :: cs.takeWhile isNumeric)).map fun n =>
      (scalar n.value, cs.dropWhile isNumeric)
  else
    (word? (c :: cs.takeWhile Char.isAlpha)).map fun v =>
      (scalar (some v), cs.dropWhile Char.isAlpha)

theorem length_of_read? {c : Char} {cs rest : List Char} {t : Token}
    (h : read? c cs = some (t, rest)) : rest.length ≤ cs.length := by
  unfold read? at h
  repeat' split at h
  all_goals simp only [Option.some.injEq, Prod.mk.injEq, Option.map_eq_some_iff] at h
  · obtain ⟨-, rfl⟩ := h; exact Nat.le_refl _
  · obtain ⟨-, rfl⟩ := h; exact Nat.le_refl _
  · obtain ⟨-, rfl⟩ := h; exact Nat.le_refl _
  · obtain ⟨-, rfl⟩ := h; exact Nat.le_refl _
  · obtain ⟨-, rfl⟩ := h; exact Nat.le_refl _
  · obtain ⟨-, rfl⟩ := h; exact Nat.le_refl _
  · obtain ⟨⟨s, r⟩, hs, -, rfl⟩ := h; exact Nat.le_of_lt (length_of_stringBody? hs)
  · obtain ⟨v, -, -, rfl⟩ := h; exact length_dropWhile_le _ _
  · obtain ⟨v, -, -, rfl⟩ := h; exact length_dropWhile_le _ _

/-- All tokens of a text, none if it holds something that is no token. -/
def scan (cs : List Char) : Option (List Token) :=
  match cs with
  | [] => some []
  | c :: cs =>
    if isBlank c then scan cs
    else
      match _h : read? c cs with
      | none => none
      | some (t, rest) => (scan rest).map (t :: ·)
termination_by cs.length
decreasing_by
  · simp
  · have := length_of_read? _h; simp only [List.length_cons]; omega

end Token
end NameResolution.Json
