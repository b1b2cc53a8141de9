import NativeRecord.Declaration

/-!
# Reasons for refusing a declaration

An error names the record that was being laid out, and the member if there is one, so that a message
can be understood without knowing how far the builder had come.  The reasons are grouped by what
they are about: a type that cannot be looked up, a member or a record that asks for something it
cannot have, and members that get in each other's way.

## What is here

* `LayoutError`, and what it says: `LayoutError.message`.
-/

set_option autoImplicit false
namespace NativeRecord

/-- What an alignment was asked for: a record, or one of its members. -/
inductive AlignmentSubject where
  | record (tag : Tag)
  | member (owner : Tag) (name : String)
deriving DecidableEq, Repr

/-- A record by its name, and a member behind that of its record. -/
def AlignmentSubject.text : AlignmentSubject → String
  | record tag => tag.name
  | member owner name => owner.name ++ "." ++ name

/-- Why an alignment, valid in itself, cannot be had. -/
inductive AlignmentConflict where
  | exceedsPack (requested pack : Nat)
  | belowMembers (requested required : Nat)
deriving DecidableEq, Repr

/-- What was asked for, and what stands against it. -/
def AlignmentConflict.text : AlignmentConflict → String
  | exceedsPack requested pack =>
    "requested alignment " ++ toString requested ++ " exceeds pack " ++ toString pack
  | belowMembers requested required =>
    "struct alignment " ++ toString requested ++ " is below the " ++ toString required ++
      " required by its fields"

/-- What is wrong with a member. -/
inductive MemberFault where
  /-- The name is empty or was used before. -/
  | unusableName
  /-- A size or an offset lies past the greatest representable one. -/
  | sizeOverflow
  | unsupportedWidth (width : Nat) (type : CType)
  /-- A member of a union has an offset other than zero. -/
  | unionOffset
  | misaligned (offset alignment : Nat)
  | pastEnd (size : Nat)
deriving DecidableEq, Repr

/-- The fault as it stands behind the name of the member. -/
def MemberFault.text : MemberFault → String
  | unusableName => "field names must be non-empty and unique"
  | sizeOverflow => "size overflows usize"
  | unsupportedWidth width type => "unsupported width " ++ toString width ++ " for " ++ type.text
  | unionOffset => "union members always live at offset 0"
  | misaligned offset alignment =>
    "offset " ++ hexOffset offset ++ " is not aligned to " ++ toString alignment
  | pastEnd size => "ends past the struct size " ++ toString size

/-- Why there is no layout. -/
inductive LayoutError where
  | unknownTag (tag : Tag)
  | recursiveEmbedding (tag : Tag)
  | overlap (owner : Tag) (first second : String)
  | bitFieldTooWide (owner : Tag) (name : String) (bits capacity : Nat)
  | invalidBitField (owner : Tag) (name : String)
  | invalidAlignment (subject : AlignmentSubject) (alignment : Nat)
  | unsatisfiableAlignment (subject : AlignmentSubject) (conflict : AlignmentConflict)
  | invalidMember (owner : Tag) (name : String) (fault : MemberFault)
  /-- The type is laid out already, from another declaration. -/
  | conflictingDeclaration (tag : Tag)
deriving DecidableEq, Repr

/-- The whole message. -/
def LayoutError.message : LayoutError → String
  | unknownTag tag => "Unknown struct type: " ++ tag.name
  | recursiveEmbedding tag => "Struct " ++ tag.name ++ " embeds itself by value"
  | overlap owner first second =>
    "Fields " ++ first ++ " and " ++ second ++ " overlap in " ++ owner.name
  | bitFieldTooWide owner name bits capacity =>
    "Bit-field " ++ owner.name ++ "." ++ name ++ " is " ++ toString bits ++
      " bits wide but its backing word holds " ++ toString capacity
  | invalidBitField owner name =>
    "Invalid bit-field " ++ owner.name ++ "." ++ name ++
      ": only integral fields can carry a bit width, and it must be non-zero"
  | invalidAlignment subject alignment =>
    "Invalid alignment " ++ toString alignment ++ " on " ++ subject.text ++
      ": must be a power of two"
  | unsatisfiableAlignment subject conflict =>
    "Unsatisfiable alignment on " ++ subject.text ++ ": " ++ conflict.text
  | invalidMember owner name fault =>
    "Invalid field " ++ name ++ " in " ++ owner.name ++ ": " ++ fault.text
  | conflictingDeclaration tag =>
    "Struct " ++ tag.name ++ " is already laid out from a different descriptor"

end NativeRecord
