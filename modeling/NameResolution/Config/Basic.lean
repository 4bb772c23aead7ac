import NameResolution.Resolution

/-!
# Configuration

The language a tree was written in, and what becomes of duplicate and ambiguous names.
-/
namespace NameResolution

/-- The language of a tree, which decides how the segments of a qualified name are joined. -/
inductive Language where
  | cpp
  | java
deriving DecidableEq, Inhabited

namespace Language

def name : Language → String
  | cpp => "cpp"
  | java => "java"

def all : List Language := [cpp, java]

def ofName? (s : String) : Option Language := all.find? (·.name == s)

def separator : Language → String
  | cpp => "::"
  | java => "."

end Language

/-- What becomes of a second variable, field, parameter or record of the same name in one scope. -/
inductive DuplicatePolicy where
  | keepFirst
  | fatal
deriving DecidableEq, Inhabited

namespace DuplicatePolicy

def name : DuplicatePolicy → String
  | keepFirst => "keep-first"
  | fatal => "fatal"

def all : List DuplicatePolicy := [keepFirst, fatal]

def ofName? (s : String) : Option DuplicatePolicy := all.find? (·.name == s)

end DuplicatePolicy

structure Config where
  language : Language := .java
  duplicates : DuplicatePolicy := .keepFirst
  ambiguity : AmbiguityPolicy := .keepAll
deriving DecidableEq, Inhabited

def Config.separator (c : Config) : String := c.language.separator

end NameResolution
