/-!
# Verbosity

How much a run tells about itself, from least to most.
-/
namespace NameResolution

inductive Verbosity where
  | quiet
  | normal
  | verbose
  | debug
  | trace
deriving DecidableEq, Inhabited

namespace Verbosity

def name : Verbosity → String
  | quiet => "Quiet"
  | normal => "Normal"
  | verbose => "Verbose"
  | debug => "Debug"
  | trace => "Trace"

def rank : Verbosity → Nat
  | quiet => 0
  | normal => 1
  | verbose => 2
  | debug => 3
  | trace => 4

/-- Asking for quiet wins over asking for more, however often. -/
def ofFlags (verbose : Nat) (isQuiet : Bool) : Verbosity :=
  if isQuiet then quiet
  else
    match verbose with
    | 0 => normal
    | 1 => .verbose
    | 2 => debug
    | _ => trace

/-- From least to most. -/
def sorted (vs : List Verbosity) : List Verbosity := vs.mergeSort fun a b => a.rank ≤ b.rank

end Verbosity
end NameResolution
