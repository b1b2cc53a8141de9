import NativeRecord.Layout.Coverage
import NativeRecord.Layout.Placement
import NativeRecord.Layout.Validation

/-!
# Building layouts

From a declaration to a layout, in two parts.  First each member is *resolved*: its type becomes a
shape, which may ask for the layout of an embedded record, and its bit width and alignment are
checked.  Then the resolved members are *assembled*: placed, sized, checked for overlaps and given
their coverage, which asks for nothing more.

## What is here

* `resolveShape`, `resolveMember`, `resolveMembers` — the first part, in any monad in which the
  layouts of embedded records can be had.
* `assemble` — the layout of resolved members.
* `build` — both, and `build?`, the same with a pure resolver and the bound of a 64-bit machine.
-/

set_option autoImplicit false
namespace NativeRecord

/-- An alignment that was asked for. -/
def checkAlignment (subject : AlignmentSubject) (bytes : Nat) : Except LayoutError Alignment :=
  match Alignment.ofBytes? bytes with
  | some alignment => .ok alignment
  | none => .error (.invalidAlignment subject bytes)

/-- The pack of a declaration, or the one of the configuration. -/
def effectivePack (config : Config) (decl : RecordDecl) : Except LayoutError (Option Alignment) :=
  match decl.pack.or config.defaultPack with
  | some pack => some <$> checkAlignment (.record decl.tag) pack
  | none => .ok none

/-! ## Resolving members -/

/-- A scalar of the platform's size and natural alignment. -/
def scalarShape (platform : Platform) (owner : Tag) (name : String) (scalar : Scalar) :
    Except LayoutError Shape :=
  let size := scalar.size platform
  match Alignment.ofBytes? (platform.naturalAlignment size) with
  | some alignment => .ok (.scalar scalar size alignment)
  | none => .error (.invalidMember owner name (.unsupportedWidth size scalar.type))

/-- A bit width goes with a type that allows it, is not zero, and fits the type. -/
def checkBits (owner : Tag) (m : MemberDecl) (size : Nat) : Except LayoutError Unit :=
  match m.bits with
  | none => .ok ()
  | some bits =>
    if !m.type.allowsBitField || bits = 0 then .error (.invalidBitField owner m.name)
    else if 8 * size < bits then .error (.bitFieldTooWide owner m.name bits (8 * size))
    else .ok ()

/-- The alignment that was asked for, which the pack must allow, or else the natural one lowered
to the pack. -/
def memberAlignment (owner : Tag) (m : MemberDecl) (pack : Option Alignment)
    (natural : Alignment) : Except LayoutError Alignment :=
  match m.alignment with
  | none => .ok (natural.packed pack)
  | some bytes => do
    let requested ← checkAlignment (.member owner m.name) bytes
    match pack.filter (· < requested) with
    | some pack => .error <|
        .unsatisfiableAlignment (.member owner m.name) (.exceedsPack requested.bytes pack.bytes)
    | none => .ok requested

section Resolve

variable {m : Type → Type} [Monad m]

/-- Answers with the layout of an embedded record. -/
abbrev Resolver (m : Type → Type) := Tag → ExceptT LayoutError m Layout

variable (limit : SizeLimit) (platform : Platform) (resolve : Resolver m) (owner : Tag)

/-- The shape of a type.  An array's size must not run past the limit. -/
def resolveShape (name : String) : CType → ExceptT LayoutError m Shape
  | .arith a => scalarShape platform owner name (.arith a)
  | .pointer target => scalarShape platform owner name (.pointer target)
  | .record tag => do return .record (← resolve tag)
  | .array element length => do
    let shape ← resolveShape name element
    let _ ← orOverflow owner name (limit.mul? shape.size length)
    return .array shape length

/-- Resolves a member's type, then checks its bit width and its alignment. -/
def resolveMember (pack : Option Alignment) (decl : MemberDecl) :
    ExceptT LayoutError m ResolvedMember := do
  let shape ← resolveShape limit platform resolve owner decl.name decl.type
  checkBits owner decl shape.size
  let alignment ← memberAlignment owner decl pack shape.alignment
  return ⟨decl, shape, alignment⟩

/-- Resolves the members in order.  A name must not be empty nor among the `seen` ones. -/
def resolveMembers (pack : Option Alignment) (seen : List String) :
    List MemberDecl → ExceptT LayoutError m (List ResolvedMember)
  | [] => return []
  | decl :: decls => do
    if decl.name = "" ∨ decl.name ∈ seen then
      throw (.invalidMember owner decl.name .unusableName)
    let first ← resolveMember limit platform resolve owner pack decl
    let rest ← resolveMembers pack (decl.name :: seen) decls
    return first :: rest

end Resolve

/-! ## Assembling a layout -/

/-- The alignment of a record whose members need `natural`. -/
def recordAlignment (decl : RecordDecl) (natural : Alignment) : Except LayoutError Alignment :=
  match decl.alignment with
  | none => .ok natural
  | some bytes => do
    let requested ← checkAlignment (.record decl.tag) bytes
    if requested < natural then
      .error <| .unsatisfiableAlignment (.record decl.tag)
        (.belowMembers requested.bytes natural.bytes)
    else .ok requested

/-- Places the members of a declaration by its form. -/
def placeMembers (limit : SizeLimit) (order : BitOrder) (decl : RecordDecl)
    (members : List ResolvedMember) : Except LayoutError (List MemberLayout × Nat) :=
  match decl.form with
  | .struct => placeInSequence limit order decl.tag members
  | .union => overlayMembers order decl.tag members

/-- The layout of a declaration whose members are resolved. -/
def assemble (limit : SizeLimit) (order : BitOrder) (decl : RecordDecl)
    (members : List ResolvedMember) : Except LayoutError Layout := do
  let (placed, stop) ← placeMembers limit order decl members
  let alignment ← recordAlignment decl (Alignment.strictest (placed.map (·.alignment)))
  let size ← orOverflow decl.tag ((placed.getLast?.map (·.name)).getD "")
    (alignment.align? limit stop)
  checkPlacement decl.tag decl.form size placed
  return .ofMembers decl.tag decl.form placed size alignment

/-! ## From declaration to layout -/

/-- The layout of a declaration, or the first reason why there is none. -/
def build {m : Type → Type} [Monad m] (limit : SizeLimit) (config : Config) (resolve : Resolver m)
    (decl : RecordDecl) : ExceptT LayoutError m Layout := do
  let pack ← effectivePack config decl
  let members ← resolveMembers limit config.platform resolve decl.tag pack [] decl.members
  assemble limit config.bitOrder decl members

/-- The layout of a declaration on a 64-bit machine, with embedded records looked up. -/
def build? (config : Config) (resolve : Tag → Except LayoutError Layout) (decl : RecordDecl) :
    Except LayoutError Layout :=
  Id.run (build .word64 config (m := Id) (fun tag => ExceptT.mk (pure (resolve tag))) decl).run

end NativeRecord
