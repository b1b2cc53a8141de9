import NativeRecord.Transfer.Read

/-!
# Comparing records

Two records of one type are ordered by their solid bytes, the first difference deciding.  Padding
and the bytes of pointers take no part.

The comparison looks at memory and at no values: it does not decode.  So the order is that of
unsigned bytes in the order in which memory holds them, and not that of the numbers in the fields.
The two views may lie in different memories, but both are read with the spans of one layout.

## What is here

* `compareBytes`, `Layout.compare`, `Layout.equal`.
-/

set_option autoImplicit false
namespace NativeRecord

/-- The order of the first bytes that differ; a list that ends first is less. -/
def compareBytes : List Byte → List Byte → Ordering
  | [], [] => .eq
  | [], _ :: _ => .lt
  | _ :: _, [] => .gt
  | a :: as, b :: bs => (Ord.compare a.toNat b.toNat).then (compareBytes as bs)

/-- Compares the bytes of some spans, span by span. -/
def compareSpans (a b : View) : List Span → Except TransferError Ordering
  | [] => .ok .eq
  | s :: rest => do
    let left ← liftAccess (a.loadBlock s.offset s.length)
    let right ← liftAccess (b.loadBlock s.offset s.length)
    match compareBytes left right with
    | .eq => compareSpans a b rest
    | unequal => return unequal

/-- The order of the records at the start of two views. -/
def Layout.compare (l : Layout) (a b : View) : Except TransferError Ordering :=
  compareSpans a b l.solid

/-- Whether the records at the start of two views have the same solid bytes. -/
def Layout.equal (l : Layout) (a b : View) : Except TransferError Bool := do
  return (← l.compare a b) == .eq

end NativeRecord
