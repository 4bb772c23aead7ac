/-!
# Blank characters

The characters with the Unicode property `White_Space`. Core's `Char.isWhitespace` knows
only some of the ASCII ones.
-/
namespace NameResolution.Text

/-- Blank by the Unicode property `White_Space`. -/
def isBlank (c : Char) : Bool :=
  let n := c.toNat
  (0x09 ≤ n && n ≤ 0x0D) || n == 0x20 || n == 0x85 || n == 0xA0 || n == 0x1680 ||
    (0x2000 ≤ n && n ≤ 0x200A) || n == 0x2028 || n == 0x2029 || n == 0x202F || n == 0x205F ||
    n == 0x3000

def trimStart (cs : List Char) : List Char := cs.dropWhile isBlank

/-- `cs` without the longest ending whose characters all satisfy `p`. -/
def dropEndWhile (p : Char → Bool) (cs : List Char) : List Char :=
  (cs.reverse.dropWhile p).reverse

def trim (cs : List Char) : List Char := dropEndWhile isBlank (trimStart cs)

example : trim " \t a b\u00a0".toList = "a b".toList := by decide

end NameResolution.Text
