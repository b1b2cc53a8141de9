import NativeRecord.Config
import NativeRecord.Exchange.CType

/-!
# Configurations as JSON

The document has one entry for each setting, under the names that the files use.  A number must be
one of 64 bits and a byte order one of the two that there are, while entries under other names are
passed over.  That the settings go together is not asked here, but by `Config.validate`.

## What is here

* `Platform.toJson`, `Config.toJson` and their readers.
-/

set_option autoImplicit false
namespace NativeRecord

def Endianness.jsonName : Endianness → String
  | little => "Little"
  | big => "Big"

def Endianness.ofJson? : Json.Decoder Endianness := namedValue? jsonName [little, big]

def BitOrder.jsonName : BitOrder → String
  | lsbFirst => "LsbFirst"
  | msbFirst => "MsbFirst"

def BitOrder.ofJson? : Json.Decoder BitOrder := namedValue? jsonName [lsbFirst, msbFirst]

def Platform.toJson (p : Platform) : Json := .ofFields [
  ("pointer_width", .nat p.pointerWidth),
  ("size_t_width", .nat p.sizeTWidth),
  ("long_width", .nat p.longWidth),
  ("time_t_width", .nat p.timeTWidth),
  ("max_scalar_alignment", .nat p.maxScalarAlignment),
  ("endianness", .text p.endianness.jsonName)]

def Platform.ofJson? : Json.Decoder Platform
  | depth + 1, j => do
    let [pointer, sizeT, long, timeT, maxAlignment, endianness] ←
      j.entries? ["pointer_width", "size_t_width", "long_width", "time_t_width",
        "max_scalar_alignment", "endianness"] | none
    return {
      pointerWidth := ← (← pointer).nat? Json.wordBound
      sizeTWidth := ← (← sizeT).nat? Json.wordBound
      longWidth := ← (← long).nat? Json.wordBound
      timeTWidth := ← (← timeT).nat? Json.wordBound
      maxScalarAlignment := ← (← maxAlignment).nat? Json.wordBound
      endianness := ← Endianness.ofJson? depth (← endianness) }
  | _, _ => none

def Config.toJson (c : Config) : Json := .ofFields [
  ("platform", c.platform.toJson),
  ("bit_order", .text c.bitOrder.jsonName),
  ("zero_fill_padding", .bool c.zeroFill),
  ("default_pack", .ofOption .nat c.defaultPack)]

def Config.ofJson? : Json.Decoder Config
  | depth + 1, j => do
    let [platform, bitOrder, zeroFill, defaultPack] ←
      j.entries? ["platform", "bit_order", "zero_fill_padding", "default_pack"] | none
    return {
      platform := ← Platform.ofJson? depth (← platform)
      bitOrder := ← BitOrder.ofJson? depth (← bitOrder)
      zeroFill := ← (← zeroFill).bool?
      defaultPack := ← Json.optional? (Json.nat? Json.wordBound) defaultPack }
  | _, _ => none

end NativeRecord
