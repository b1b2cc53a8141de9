import NativeRecord.Config.Path
import NativeRecord.Exchange.Config

/-!
# Configuration files

A configuration is kept as a JSON file, which its name must show.  A name without an extension is
good enough for writing, not for reading.

The file system is not modelled; what matters of it is what stands at the path before and after.  A
`Site` has that, with a function for what becomes of the place when a file is written there, and the
two operations are functions of a site.  So a statement about saving and loading can be made for
every way in which writing may go, and the paths that lead from an empty directory are one instance.

## What is here

* `Found` — what stands at a path, and `Site` — a place for a file, with what its name tells and
  what becomes of it when a file is written there.
* `Config.loadAs`, a function of the extension and of what stands there, and `Config.saveAt`, which
  answers with what stands there afterwards.
* `Config.load` and `Config.save` — the same for a path in a directory that holds nothing.
-/

set_option autoImplicit false
namespace NativeRecord

/-- What stands at a path. -/
inductive Found where
  | nothing
  | directory
  | file (contents : ByteArray)

namespace Found

/-- A directory or nothing. -/
def ofDirectory (isDirectory : Bool) : Found := if isDirectory then directory else nothing

/-- What a file holds, if that is text. -/
def text? : Found → Option String
  | file contents => String.fromUTF8? contents
  | _ => none

end Found

/-- A place for a file. -/
structure Site where
  /-- The extension in the name, if there is one and it is text. -/
  extension? : Option String
  /-- What stands there. -/
  found : Found
  /-- Makes the directories on the way and writes a file.  The answer tells whether this succeeds,
  and what stands there afterwards. -/
  write : ByteArray → Bool × Found

/-- The place to which a path leads from a directory that holds nothing. -/
def Site.ofPath (path : String) : Site where
  extension? := fileExtension? path
  found := .ofDirectory (isDirectory path)
  write contents :=
    if isWritable path then (true, .file contents)
    else (false, .ofDirectory (isDirectoryOnceMade path))

/-- Why a configuration was not read or written. -/
inductive ConfigError where
  | notFound
  /-- The file does not hold text, or is a directory. -/
  | unreadable
  /-- No file can be written at the path. -/
  | unwritable
  | malformed
  | unsupportedFormat (extension : String)
  | invalid (flaw : ConfigFlaw)
deriving DecidableEq, Repr

def ConfigError.message : ConfigError → String
  | notFound => "Config file not found"
  | unreadable | unwritable => "IO error"
  | malformed => "Parse error"
  | unsupportedFormat extension => "Unsupported config format: " ++ extension
  | invalid flaw => "Validation error: " ++ flaw.message

/-- Whether an extension, in letters of any case, is that of a JSON file. -/
def isJsonExtension (extension : String) : Bool :=
  extension.toList.map Char.toLower == ['j', 's', 'o', 'n']

namespace Config

/-- Reads a configuration from what was found under a name with an extension, and validates it. -/
def loadAs (extension? : Option String) : Found → Except ConfigError Config
  | .nothing => .error .notFound
  | found => do
    let some text := found.text? | throw .unreadable
    let extension := extension?.getD ""
    if !isJsonExtension extension then throw (.unsupportedFormat extension)
    let some config := Json.decode? ofJson? text | throw .malformed
    match config.validate with
    | .ok () => return config
    | .error flaw => throw (.invalid flaw)

/-- Writes a configuration to a place.  The answer tells what stands there afterwards. -/
def saveAt (c : Config) (site : Site) : Except ConfigError Unit × Found :=
  let extension := site.extension?.getD "json"
  if !isJsonExtension extension then (.error (.unsupportedFormat extension), site.found)
  else
    match site.write c.toJson.pretty.toUTF8 with
    | (true, found) => (.ok (), found)
    | (false, found) => (.error .unwritable, found)

/-- Reads a configuration from what was found at a path, and validates it. -/
def load (path : String) (found : Found) : Except ConfigError Config :=
  loadAs (fileExtension? path) found

/-- Writes a configuration to a path, below a directory that holds nothing, and makes the
directories on the way.  The answer tells what stands at the path afterwards. -/
def save (c : Config) (path : String) : Except ConfigError Unit × Found := c.saveAt (.ofPath path)

end Config

end NativeRecord
