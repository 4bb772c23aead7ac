import NameResolution.Json.Basic
import NameResolution.Decimal.Shortest

/-!
# Literals

The values that a literal may have, their text, and the JSON values they are exchanged as.
-/
namespace NameResolution

inductive LiteralValue where
  | bool (value : Bool)
  | int (value : Int64)
  | float (value : Float)
  | str (value : String)
  | null
deriving DecidableEq

namespace LiteralValue

def text : LiteralValue → String
  | bool b => if b then "true" else "false"
  | int n => toString n.toInt
  | float x => Decimal.text x
  | str s => s
  | null => "null"

def sort : LiteralValue → String
  | bool _ => "bool"
  | int _ => "int"
  | float _ => "float"
  | str _ => "string"
  | null => "null"

/-- The whole numbers of 64 bits with a sign. -/
def fits (n : Int) : Bool := Int64.minValue.toInt ≤ n && n ≤ Int64.maxValue.toInt

/-- The double nearest to a whole number. -/
def floatOfInt : Int → Float
  | .ofNat n => (UInt64.ofNat n).toFloat
  | .negSucc n => -(UInt64.ofNat (n + 1)).toFloat

/-- A whole number out of the range of 64 bits with a sign is read as a double; containers are no
literals. -/
def ofJson? : Json → Option LiteralValue
  | .null => some null
  | .bool b => some (bool b)
  | .int n => some (if fits n then int (Int64.ofInt n) else float (floatOfInt n))
  | .float x => some (float x)
  | .str s => some (str s)
  | .arr _ | .obj _ => none

/-- The value written out. What is not a finite number has no JSON form but `null`. -/
def toJson : LiteralValue → Json
  | bool b => .bool b
  | int n => .int n.toInt
  | float x => if x.isFinite then .float x else .null
  | str s => .str s
  | null => .null

end LiteralValue
end NameResolution
