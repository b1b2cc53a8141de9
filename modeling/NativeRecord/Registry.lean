import NativeRecord.Keyed
import NativeRecord.Layout.Build

/-!
# The registry of record types

A registry holds declarations and builds their layouts on demand.  A layout is built once, the
layouts of the records it embeds before it, and kept until the registry forgets its layouts.  While
a type is being built it is in progress; meeting it again before it is finished means that it
embeds itself.

## What is here

* `Registry`, with `Registry.declare`, `Registry.layoutOf`, `Registry.kept?` and
  `Registry.forget`.
* `RecordTransfer` and `Registry.transferOf` — a layout with the way in which its records are
  written.
* `Registry.resolve` — the recursion behind `layoutOf`.  Each nested build adds one registered
  type to those in progress, so the number of declarations bounds the depth.
-/

set_option autoImplicit false
namespace NativeRecord

/-- Declarations, and the layouts built from them so far. -/
structure Registry where
  config : Config
  decls : List RecordDecl
  layouts : List Layout
  /-- The types whose layouts are being built, the innermost first. -/
  inProgress : List Tag
  /-- The number of layouts built since the registry was made. -/
  builds : Nat

/-- What moves the records of a type to memory and back. -/
structure RecordTransfer where
  layout : Layout
  zeroFill : Bool

namespace Registry

/-- A registry without declarations. -/
def new (config : Config) : Registry := ⟨config, [], [], [], 0⟩

/-- A registry for the platform that is assumed when none is named. -/
def standard : Registry := new .standard

/-- The declaration of a type. -/
def decl? (r : Registry) (tag : Tag) : Option RecordDecl := lookup? RecordDecl.tag tag r.decls

/-- The layout of a type, if it is built already. -/
def kept? (r : Registry) (tag : Tag) : Option Layout := lookup? Layout.tag tag r.layouts

/-- Whether a type has a declaration. -/
def declares (r : Registry) (tag : Tag) : Bool := (r.decl? tag).isSome

/-- Records a declaration.  Once a type is laid out, only the same declaration is accepted. -/
def declare (r : Registry) (decl : RecordDecl) : Except LayoutError Registry :=
  if (r.decl? decl.tag).any (· ≠ decl) ∧ (r.kept? decl.tag).isSome then
    .error (.conflictingDeclaration decl.tag)
  else .ok { r with decls := upsert RecordDecl.tag decl r.decls }

/-- Marks a type as being built. -/
def enter (r : Registry) (tag : Tag) : Registry := { r with inProgress := tag :: r.inProgress }

/-- Takes the mark back. -/
def finish (r : Registry) (tag : Tag) : Registry :=
  { r with inProgress := r.inProgress.erase tag }

/-- Keeps a layout that was just built, under the next serial number. -/
def keep (r : Registry) (layout : Layout) : Layout × Registry :=
  let layout := { layout with serial := r.builds + 1 }
  (layout, { r with layouts := upsert Layout.tag layout r.layouts, builds := r.builds + 1 })

/-- The layout of a type: a kept one, or one that is built now.  Layouts that were built on the
way are kept even if the build fails.  At depth zero nothing is built. -/
def resolve : (depth : Nat) → Resolver (StateM Registry)
  | 0, tag => throw (.recursiveEmbedding tag)
  | depth + 1, tag => ExceptT.mk fun r =>
    match r.kept? tag with
    | some layout => (.ok layout, r)
    | none =>
      if tag ∈ r.inProgress then (.error (.recursiveEmbedding tag), r)
      else
        match r.decl? tag with
        | none => (.error (.unknownTag tag), r)
        | some decl =>
          let (answer, r) := (build .word64 r.config (resolve depth) decl).run (r.enter tag)
          let r := r.finish tag
          match answer with
          | .error e => (.error e, r)
          | .ok layout =>
            let (layout, r) := r.keep layout
            (.ok layout, r)

/-- The layout of a type, built on first use together with those of the records it embeds. -/
def layoutOf (r : Registry) (tag : Tag) : Except LayoutError Layout × Registry :=
  (resolve (r.decls.length + 1) tag).run r

/-- The layout of a type, and whether the padding of its records is zeroed when they are written. -/
def transferOf (r : Registry) (tag : Tag) : Except LayoutError RecordTransfer × Registry :=
  let (answer, r) := r.layoutOf tag
  (answer.map fun layout => ⟨layout, r.config.zeroFill⟩, r)

/-- The number of layouts that are kept. -/
def size (r : Registry) : Nat := r.layouts.length

/-- Drops the layouts.  The declarations stay. -/
def forget (r : Registry) : Registry := { r with layouts := [] }

/-- Whether the record in a member of `outer` is the very layout that is kept for `inner`. -/
def shares? (r : Registry) (outer : Layout) (member : String) (inner : Tag) : Option Bool := do
  let nested ← (← outer.member? member).nested?
  let own ← r.kept? inner
  return nested.serial == own.serial

end Registry

end NativeRecord
