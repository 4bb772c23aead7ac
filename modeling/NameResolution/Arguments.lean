import NameResolution.Config.Load
import NameResolution.Report.Text
import NameResolution.Verbosity

/-!
# Arguments

The words of a command line. An option that takes a value has it in the same word, after an equals sign,
or in the next word; short options may share a word. The value of an option is read when the next option
begins, so that a word that means nothing is told before a bad value just in front of it.
-/
namespace NameResolution

/-- Why the words of a command line cannot be used. Asking for help is one such reason. -/
inductive UsageError where
  | missingPath
  | invalidValue
  | unknownArgument
  | repeated
  | unneededValue
  | help
deriving DecidableEq

/-- Asking for help is no failure. -/
def UsageError.exitCode : UsageError → Nat
  | help => 0
  | _ => 2

inductive OptionName where
  | path
  | config
  | language
  | failOnDuplicate
  | ambiguity
  | outputFile
  | format
  | verbose
  | quiet
  | help
deriving DecidableEq

namespace OptionName

def all : List OptionName :=
  [path, config, language, failOnDuplicate, ambiguity, outputFile, format, verbose, quiet, help]

def long : OptionName → String
  | path => "path"
  | config => "config"
  | language => "language"
  | failOnDuplicate => "fail-on-duplicate"
  | ambiguity => "ambiguity"
  | outputFile => "output-file"
  | format => "format"
  | verbose => "verbose"
  | quiet => "quiet"
  | help => "help"

def short? : OptionName → Option Char
  | language => some 'l'
  | outputFile => some 'O'
  | format => some 'f'
  | verbose => some 'v'
  | quiet => some 'q'
  | help => some 'h'
  | path | config | failOnDuplicate | ambiguity => none

def takesValue : OptionName → Bool
  | path | config | language | ambiguity | outputFile | format => true
  | failOnDuplicate | verbose | quiet | help => false

def ofLong? (s : String) : Option OptionName := all.find? (·.long == s)

def ofShort? (c : Char) : Option OptionName := all.find? (·.short? == some c)

end OptionName

structure Arguments where
  path : String
  config : Option String := none
  language : Option Language := none
  failOnDuplicate : Bool := false
  ambiguity : Option AmbiguityPolicy := none
  outputFile : Option String := none
  format : ReportFormat := .json
  verbose : Nat := 0
  quiet : Bool := false
deriving DecidableEq

namespace Arguments

/-- What has been given so far. -/
structure Given where
  path : Option String := none
  config : Option String := none
  language : Option Language := none
  failOnDuplicate : Bool := false
  ambiguity : Option AmbiguityPolicy := none
  outputFile : Option String := none
  format : Option ReportFormat := none
  verbose : Nat := 0
  quiet : Bool := false
  /-- The option whose value is still to be read, and the word for it if there was one. -/
  pending : Option (OptionName × Option String) := none

def once {α : Type} (current value : Option α) : Except UsageError (Option α) :=
  if current.isSome then .error .repeated
  else if value.isNone then .error .invalidValue
  else .ok value

def raise (current : Bool) : Except UsageError Bool :=
  if current then .error .repeated else .ok true

/-- The text of a path, which is never empty. -/
def pathText? (s : String) : Option String := if s = "" then none else some s

def Given.setValue (g : Given) (o : OptionName) (value : String) : Except UsageError Given :=
  match o with
  | .path => (once g.path (pathText? value)).map fun path => { g with path }
  | .config => (once g.config (pathText? value)).map fun config => { g with config }
  | .language => (once g.language (Language.ofName? value)).map fun language => { g with language }
  | .ambiguity =>
    (once g.ambiguity (AmbiguityPolicy.ofName? value)).map fun ambiguity => { g with ambiguity }
  | .outputFile => (once g.outputFile (pathText? value)).map fun outputFile => { g with outputFile }
  | .format => (once g.format (ReportFormat.ofName? value)).map fun format => { g with format }
  | .failOnDuplicate | .verbose | .quiet | .help => .error .unneededValue

/-- The greatest number of times that asking for more counts. -/
def maxVerbose : Nat := 255

def Given.setFlag (g : Given) (o : OptionName) : Except UsageError Given :=
  match o with
  | .failOnDuplicate => (raise g.failOnDuplicate).map fun b => { g with failOnDuplicate := b }
  | .quiet => (raise g.quiet).map fun b => { g with quiet := b }
  | .verbose => .ok { g with verbose := min (g.verbose + 1) maxVerbose }
  | .help => .error .help
  | .path | .config | .language | .ambiguity | .outputFile | .format => .error .invalidValue

/-- Reads the value that is still to be read. -/
def Given.settle (g : Given) : Except UsageError Given :=
  match g.pending with
  | none => .ok g
  | some (_, none) => .error .invalidValue
  | some (o, some value) => { g with pending := none }.setValue o value

/-- Takes an option, with the value in the same word if there is one. -/
def Given.take (g : Given) (o : OptionName) (attached : Option String) : Except UsageError Given := do
  match o.takesValue, attached with
  | true, some value => (← g.settle).setValue o value
  | true, none => pure { ← g.settle with pending := some (o, none) }
  | false, some _ => .error .unneededValue
  | false, none => (← g.settle).setFlag o

/-- Takes the options that share a word. The first that takes a value has the rest of the word for it. -/
def Given.takeShort (g : Given) : List Char → Except UsageError Given
  | [] => .ok g
  | c :: rest =>
    match OptionName.ofShort? c with
    | none => .error .unknownArgument
    | some o =>
      if o.takesValue then
        match rest with
        | [] => g.take o none
        | '=' :: value => g.take o (some (String.ofList value))
        | value => g.take o (some (String.ofList value))
      else do (← g.take o none).takeShort rest

/-- Splits a word at its first equals sign. -/
def splitValue (cs : List Char) : String × Option String :=
  match cs.dropWhile (· != '=') with
  | [] => (String.ofList cs, none)
  | _ :: value => (String.ofList (cs.takeWhile (· != '=')), some (String.ofList value))

def Given.takeLong (g : Given) (cs : List Char) : Except UsageError Given :=
  let (name, attached) := splitValue cs
  match OptionName.ofLong? name with
  | none => .error .unknownArgument
  | some o => g.take o attached

def Given.takeWord (g : Given) (word : String) : Except UsageError Given :=
  match g.pending with
  | some (o, none) => .ok { g with pending := some (o, some word) }
  | _ => .error .unknownArgument

/-- Takes all words. After two dashes alone there may be no more. -/
def Given.takeAll (g : Given) : List String → Except UsageError Given
  | [] => g.settle
  | word :: words =>
    match word.toList with
    | ['-', '-'] => if words.isEmpty then g.settle else .error .unknownArgument
    | '-' :: '-' :: cs => do (← g.takeLong cs).takeAll words
    | '-' :: c :: cs => do (← g.takeShort (c :: cs)).takeAll words
    | _ => do (← g.takeWord word).takeAll words

def parse (words : List String) : Except UsageError Arguments := do
  let g ← Given.takeAll {} words
  match g.path with
  | none => .error .missingPath
  | some path =>
    pure
      { path
        config := g.config
        language := g.language
        failOnDuplicate := g.failOnDuplicate
        ambiguity := g.ambiguity
        outputFile := g.outputFile
        format := g.format.getD .json
        verbose := g.verbose
        quiet := g.quiet }

def verbosity (a : Arguments) : Verbosity := .ofFlags a.verbose a.quiet

def problem? (a : Arguments) (files : Files) : Option String :=
  if (files a.path).isNone then some ("Path does not exist: " ++ a.path)
  else
    match a.config with
    | none => none
    | some config =>
      if (files config).isNone then some ("Config file does not exist: " ++ config) else none

/-- The configuration file, or the defaults, with what the arguments say put over it. -/
def resolverConfig (a : Arguments) (files : Files) : Except ConfigError Config := do
  let base ←
    match a.config with
    | none => pure {}
    | some path => Config.load files path
  pure
    { language := a.language.getD base.language
      duplicates := if a.failOnDuplicate then .fatal else base.duplicates
      ambiguity := a.ambiguity.getD base.ambiguity }

def loadProblem (a : Arguments) : String := "Cannot load config: " ++ a.config.getD ""

end Arguments
end NameResolution
