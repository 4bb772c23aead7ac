/-!
# YAML values

The part of YAML that a configuration is written in: scalars, lists and mappings. A scalar is
its text, whatever that text may look like; besides it only keeps whether it was quoted.
-/
namespace NameResolution

inductive Yaml where
  | scalar ( isQuoted : Bool) (text : String)
  | list (items : List Yaml)
  | mapping (entries : List (Yaml × Yaml))
deriving Inhabited

namespace Yaml

/-- What stands where nothing is written. -/
def absent : Yaml := scalar false ""

def text? : Yaml → Option String
  | scalar _ text => some text
  | _ => none

end Yaml
end NameResolution
