/-!
# Severity levels

A level is set by a text that someone typed, so reading one never fails: a name that is not known
means the level that is usual.  The names that are shown are in capitals, and those that are read
may be in any case; `warning` is read as well, but not shown.

## What is here

* `Severity` with its names, and `Severity.ofText`.
-/

set_option autoImplicit false
namespace NativeRecord

/-- How grave a message must be to be shown. -/
inductive Severity where
  | off
  | error
  | warn
  | info
  | debug
  | trace
deriving DecidableEq, Repr

namespace Severity

def text : Severity → String
  | off => "OFF"
  | error => "ERROR"
  | warn => "WARN"
  | info => "INFO"
  | debug => "DEBUG"
  | trace => "TRACE"

/-- The level with that name, in letters of any case; `info` for any other text. -/
def ofText (s : String) : Severity :=
  match String.ofList (s.toList.map Char.toLower) with
  | "error" => error
  | "warn" | "warning" => warn
  | "debug" => debug
  | "trace" => trace
  | "off" => off
  | _ => info

end Severity

end NativeRecord
