/-!
# JSON values

A value keeps what its text distinguishes: whole numbers apart from floating ones, and the
members of an object in order, repeated keys included. What a repeated key means is for the
reader of the value to say.
-/
namespace NameResolution

inductive Json where
  | null
  | bool (value : Bool)
  | int (value : Int)
  | float (value : Float)
  | str (value : String)
  | arr (items : List Json)
  | obj (members : List (String × Json))
deriving Inhabited

namespace Json

def valuesOf (key : String) (members : List (String × Json)) : List Json :=
  (members.filter (·.1 == key)).map Prod.snd

/-- An optional value, absent as `null`. -/
def ofOption {α : Type} (f : α → Json) : Option α → Json
  | none => null
  | some a => f a

def nat (n : Nat) : Json := int n

end Json
end NameResolution
