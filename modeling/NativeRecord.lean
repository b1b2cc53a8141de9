import NativeRecord.Config.File
import NativeRecord.Exchange.Declaration
import NativeRecord.Exchange.Summary
import NativeRecord.Transfer.Access
import NativeRecord.Transfer.Compare
import NativeRecord.Registry
import NativeRecord.Severity
import NativeRecord.Proofs.Transfer.Independence
import NativeRecord.Proofs.Transfer.RoundTrip
import NativeRecord.Proofs.Registry.Recursion
import NativeRecord.Proofs.Registry.Accounting
import NativeRecord.Proofs.Registry.Transfers
import NativeRecord.Proofs.Span
import NativeRecord.Proofs.CType
import NativeRecord.Proofs.Layout.Leaves
import NativeRecord.Proofs.Layout.ArrayMembers
import NativeRecord.Proofs.Layout.Coverage
import NativeRecord.Proofs.Layout.Arrangement
import NativeRecord.Proofs.Layout.Retargeting
import NativeRecord.Proofs.Layout.AnonymousUnion
import NativeRecord.Proofs.Transfer.Overwriting
import NativeRecord.Proofs.Transfer.Conformance
import NativeRecord.Proofs.Transfer.Bounds
import NativeRecord.Proofs.Float
import NativeRecord.Proofs.Transfer.Restoring
import NativeRecord.Proofs.Transfer.Comparison
import NativeRecord.Proofs.Machine.Build
import NativeRecord.Proofs.Machine.SpanSets
import NativeRecord.Proofs.Machine.Conflicts
import NativeRecord.Proofs.Layout.Tightness
import NativeRecord.Proofs.Layout.BitPacking
import NativeRecord.Proofs.Layout.Acceptance
import NativeRecord.Proofs.Transfer.ForeignViews
import NativeRecord.Proofs.Layout.Draft
import NativeRecord.Proofs.Layout.NaturalAlignment
import NativeRecord.Proofs.Layout.Mirroring
import NativeRecord.Proofs.Layout.Packing
import NativeRecord.Proofs.Transfer.Widths
import NativeRecord.Proofs.Transfer.ZeroFilling
import NativeRecord.Proofs.Transfer.EntryOrder
import NativeRecord.Proofs.Transfer.TypedAccess
import NativeRecord.Proofs.Transfer.Residues
import NativeRecord.Proofs.Transfer.Elements
import NativeRecord.Proofs.Transfer.FailurePaths
import NativeRecord.Proofs.Transfer.Lexicographic
import NativeRecord.Proofs.Memory.StoreLaws
import NativeRecord.Proofs.Config.File
