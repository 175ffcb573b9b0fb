import SnapshotDiff.CommandLine.Directory
import SnapshotDiff.Main
import SnapshotDiff.Proofs.Json.Delimited
import SnapshotDiff.Proofs.Json.Canonical
import SnapshotDiff.Proofs.Node.Fits
import SnapshotDiff.Proofs.BuiltIn.Layout
import SnapshotDiff.Proofs.Correlation.Groups
import SnapshotDiff.Proofs.Correlation.Dirty
import SnapshotDiff.Proofs.Change.Fields
import SnapshotDiff.Proofs.Difference.Tree
import SnapshotDiff.Proofs.Path
import SnapshotDiff.Proofs.Difference.Places
import SnapshotDiff.Proofs.Difference.Record
import SnapshotDiff.Proofs.OnePass
import SnapshotDiff.Proofs.Engine.Configured
import SnapshotDiff.Proofs.Change.Alike
import SnapshotDiff.Proofs.Change.Swap
import SnapshotDiff.Proofs.Correlation.Order
import SnapshotDiff.Proofs.Correlation.Swap
import SnapshotDiff.Proofs.Entity.Absent
import SnapshotDiff.Proofs.Mirror
import SnapshotDiff.Proofs.Change.Congruence
import SnapshotDiff.Proofs.Congruence
import SnapshotDiff.Proofs.Entity.Acceptance
import SnapshotDiff.Proofs.Rearranged
import SnapshotDiff.Proofs.Ignoring
import SnapshotDiff.Proofs.Visible
import SnapshotDiff.Proofs.Entity.Rendered
import SnapshotDiff.Proofs.Undeclared
import SnapshotDiff.Proofs.BuiltIn.Wrapped
import SnapshotDiff.Proofs.Creation
import SnapshotDiff.Proofs.Lossless
import SnapshotDiff.Proofs.Correlation.Stems
import SnapshotDiff.Proofs.Independent
import SnapshotDiff.Proofs.Binary64.ReadBack
import SnapshotDiff.Proofs.Json.Injective
import SnapshotDiff.Proofs.Node.Keys
import SnapshotDiff.Proofs.Node.Discerned
import SnapshotDiff.Proofs.WholeValue
import SnapshotDiff.Proofs.Finding.Matched
import SnapshotDiff.Proofs.Lookup
import SnapshotDiff.Proofs.Entity.Blank
import SnapshotDiff.Proofs.DefaultObjects
import SnapshotDiff.Proofs.Change.Described
import SnapshotDiff.Proofs.WellFormed
import SnapshotDiff.Proofs.AuditEntry
import SnapshotDiff.Proofs.BuiltIn.Bare
import SnapshotDiff.Proofs.BuiltIn.Entries
import SnapshotDiff.Proofs.BuiltIn.Rendered
import SnapshotDiff.Proofs.BuiltIn.Written
import SnapshotDiff.Proofs.BuiltIn.Edits
import SnapshotDiff.Proofs.Correlation.Valueless
import SnapshotDiff.Proofs.EmptyObjects
import SnapshotDiff.Proofs.AnyField
import SnapshotDiff.Proofs.Node.Equivalent
import SnapshotDiff.Proofs.CommandLine.Report
import SnapshotDiff.Proofs.Date
import SnapshotDiff.Proofs.Instant.Clock
import SnapshotDiff.Proofs.DateTime
import SnapshotDiff.Proofs.Path.Segments
import SnapshotDiff.Proofs.Correlation.Partition
import SnapshotDiff.Proofs.Correlation.Closure
import SnapshotDiff.Proofs.Difference.Identities
