import NativeRecord.Platform

/-!
# The types of fields

A type is described by what it was declared as and not by how large it is: the size of `long` or of
a pointer is asked of a platform when a layout is made, so one declaration serves all of them.  A
struct is mentioned by its name alone, which lets types refer to each other in any order and to
themselves through pointers.

What memory moves is less than that.  Numbers, truth values, enumerations and pointers are stored as
one word each and make up `Scalar`; everything that encodes or decodes goes by this type, and
records and arrays are taken apart until only scalars are left.

## What is here

* `Arith` — the arithmetic types of C, some of which have a size that depends on the platform;
  `Tag`, the name of a struct or union type; `CType`, the type of a field.
* `Scalar` — the types that memory moves as one word: the arithmetic types and the pointers.
* The text of a type (`CType.text`).
-/

set_option autoImplicit false
namespace NativeRecord

/-- The widths of the fixed-size integers. -/
inductive IntWidth where
  | w8
  | w16
  | w32
  | w64
deriving DecidableEq, Repr

namespace IntWidth

def bytes : IntWidth → Nat
  | w8 => 1
  | w16 => 2
  | w32 => 4
  | w64 => 8

def bits (w : IntWidth) : Nat := 8 * w.bytes

/-- The integer width of that many bytes. -/
def ofBytes? : Nat → Option IntWidth
  | 1 => some w8
  | 2 => some w16
  | 4 => some w32
  | 8 => some w64
  | _ => none

theorem ofBytes?_eq_some_iff {n : Nat} {w : IntWidth} : ofBytes? n = some w ↔ w.bytes = n := by
  constructor
  · unfold ofBytes?
    split <;> simp_all <;> rintro rfl <;> rfl
  · rintro rfl
    cases w <;> rfl

end IntWidth

/-- The widths of the floating-point types. -/
inductive FloatWidth where
  | f32
  | f64
deriving DecidableEq, Repr

def FloatWidth.bytes : FloatWidth → Nat
  | .f32 => 4
  | .f64 => 8

/-- The integer types whose width the platform decides. -/
inductive TargetInt where
  | sizeT
  | long
  | unsignedLong
  | timeT
deriving DecidableEq, Repr

namespace TargetInt

def width (platform : Platform) : TargetInt → Nat
  | sizeT => platform.sizeTWidth
  | long | unsignedLong => platform.longWidth
  | timeT => platform.timeTWidth

def isSigned : TargetInt → Bool
  | long | timeT => true
  | sizeT | unsignedLong => false

def text : TargetInt → String
  | sizeT => "size_t"
  | long => "long"
  | unsignedLong => "unsigned long"
  | timeT => "time_t"

end TargetInt

/-- The arithmetic types. -/
inductive Arith where
  | signed (width : IntWidth)
  | unsigned (width : IntWidth)
  | float (width : FloatWidth)
  | bool
  | platform (type : TargetInt)
  | enum (width : IntWidth)
deriving DecidableEq, Repr

namespace Arith

def size (platform : Platform) : Arith → Nat
  | signed w | unsigned w | enum w => w.bytes
  | float w => w.bytes
  | bool => 1
  | .platform p => p.width platform

/-- Whether a bit-field may have this type. -/
def allowsBitField : Arith → Bool
  | signed _ | unsigned _ | enum _ | bool => true
  | float _ | platform _ => false

/-- Whether values of this type are integers. -/
def isInteger : Arith → Bool
  | signed _ | unsigned _ | enum _ | platform _ => true
  | float _ | bool => false

/-- Whether the stored bits are read as a two's complement number. -/
def isSigned : Arith → Bool
  | signed _ => true
  | platform p => p.isSigned
  | _ => false

def text : Arith → String
  | signed w => "i" ++ toString w.bits
  | unsigned w => "u" ++ toString w.bits
  | float w => "f" ++ toString (8 * w.bytes)
  | bool => "bool"
  | platform p => p.text
  | enum w => "enum" ++ toString w.bits

end Arith

/-- The name of a struct or union type. -/
structure Tag where
  name : String
deriving DecidableEq, Repr

/-- The type of a field.  A pointer's target is only named: it need not be complete. -/
inductive CType where
  | arith (type : Arith)
  | pointer (target : CType)
  | record (tag : Tag)
  | array (element : CType) (length : Nat)
deriving DecidableEq, Repr

/-- A type that is stored as one word. -/
inductive Scalar where
  | arith (type : Arith)
  | pointer (target : CType)
deriving DecidableEq, Repr

namespace CType

def isPointer : CType → Bool
  | pointer _ => true
  | _ => false

def isArray : CType → Bool
  | array _ _ => true
  | _ => false

def isRecord : CType → Bool
  | record _ => true
  | _ => false

def allowsBitField : CType → Bool
  | arith a => a.allowsBitField
  | _ => false

def isInteger : CType → Bool
  | arith a => a.isInteger
  | _ => false

def isSigned : CType → Bool
  | arith a => a.isSigned
  | _ => false

def isEnum : CType → Bool
  | arith (.enum _) => true
  | _ => false

def isFloat : CType → Bool
  | arith (.float _) => true
  | _ => false

/-- The scalar that a type is, unless it is built from others. -/
def scalar? : CType → Option Scalar
  | arith a => some (.arith a)
  | pointer target => some (.pointer target)
  | record _ | array _ _ => none

def text : CType → String
  | arith a => a.text
  | pointer target => "*" ++ target.text
  | record tag => "struct " ++ tag.name
  | array element length => "[" ++ element.text ++ "; " ++ toString length ++ "]"

end CType

namespace Scalar

def type : Scalar → CType
  | arith a => .arith a
  | pointer target => .pointer target

def size (platform : Platform) : Scalar → Nat
  | arith a => a.size platform
  | pointer _ => platform.pointerWidth

def isPointer : Scalar → Bool
  | pointer _ => true
  | arith _ => false

@[simp] theorem scalar?_type (s : Scalar) : s.type.scalar? = some s := by
  cases s <;> rfl

@[simp] theorem isPointer_type (s : Scalar) : s.type.isPointer = s.isPointer := by
  cases s <;> rfl

end Scalar

end NativeRecord
