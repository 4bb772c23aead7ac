import NameResolution.Config.Basic
import NameResolution.Files.Tree
import NameResolution.Json.Reader
import NameResolution.Yaml.Reader

/-!
# Loading a configuration

A configuration file is JSON or YAML by its extension. Its keys may come in any order, and those that mean
nothing are ignored; what it does not say keeps its default.
-/
namespace NameResolution

inductive ConfigError where
  | unreadable (path : String)
  | malformed (path : String)
  | unsupported (extension : String)
deriving DecidableEq

def ConfigError.message : ConfigError → String
  | unreadable path => "failed to read config file '" ++ path ++ "'"
  | malformed path => "failed to parse config file '" ++ path ++ "'"
  | unsupported extension =>
    "unsupported config format: " ++ extension ++ " (expected json or yaml)"

namespace Config

/-- The setting under a key, which is there at most once and one of the known words. -/
def setting? {α : Type} (entries : List (String × Option String)) (key : String) (default : α)
    (ofName? : String → Option α) : Option α :=
  match entries.filter (·.1 == key) with
  | [] => some default
  | [(_, some word)] => ofName? word
  | _ => none

def keys : List String := ["language", "duplicate_policy", "ambiguity_policy"]

/-- The configuration that entries spell; a value that is no word is none. -/
def ofEntries? (entries : List (String × Option String)) : Option Config := do
  let language ← setting? entries "language" .java Language.ofName?
  let duplicates ← setting? entries "duplicate_policy" .keepFirst DuplicatePolicy.ofName?
  let ambiguity ← setting? entries "ambiguity_policy" .keepAll AmbiguityPolicy.ofName?
  pure { language, duplicates, ambiguity }

/-- A word as a JSON value: a string, or an object with that key alone and the value `null`. -/
def word? : Json → Option String
  | .str s => some s
  | .obj [(s, .null)] => some s
  | _ => none

/-- The configuration that a JSON value spells: an object, or the settings in the order of their keys. -/
def ofJson? : Json → Option Config
  | .obj members => ofEntries? (members.map fun (k, v) => (k, word? v))
  | .arr items =>
    if items.length ≤ keys.length then ofEntries? (keys.zip (items.map word?)) else none
  | _ => none

/-- The configuration that a YAML value spells: a mapping whose keys are scalars, or nothing. -/
def ofYaml? : Yaml → Option Config
  | .mapping entries => do ofEntries? (← entries.mapM fun (k, v) => k.text?.map (·, v.text?))
  | .scalar false "" => ofEntries? []
  | _ => none

def parse? (extension text : String) : Option Config :=
  if extension = "json" then (Json.readAmong? keys.contains text).bind ofJson?
  else (Yaml.read? text).bind ofYaml?

def load (files : Files) (path : String) : Except ConfigError Config :=
  match (files path).bind FileTree.text? with
  | none => .error (.unreadable path)
  | some text =>
    let extension := (Path.extension? path).getD ""
    if extension = "json" ∨ extension = "yaml" ∨ extension = "yml" then
      match parse? extension text with
      | none => .error (.malformed path)
      | some config => .ok config
    else .error (.unsupported extension)

end Config
end NameResolution
