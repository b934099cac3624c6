import VersionRange.Canonical.Stability
import VersionRange.Constraint.Loose
import VersionRange.Session
import VersionRange.Version.Interchange
import VersionRange.Proofs.Order.Key
import VersionRange.Proofs.Order.Preorder
import VersionRange.Proofs.Canonical.Marker
import VersionRange.Proofs.Canonical.Group
import VersionRange.Proofs.Canonical.Date
import VersionRange.Proofs.Canonical.Release
import VersionRange.Proofs.Canonical.Branch
import VersionRange.Proofs.Canonical.Stable
import VersionRange.Proofs.Expression.Split
import VersionRange.Proofs.Expression.Clean
import VersionRange.Proofs.Constraint.Accept
import VersionRange.Proofs.Constraint.Between
import VersionRange.Proofs.Expression.Parse
import VersionRange.Proofs.Expression.Meaning
import VersionRange.Proofs.Expression.Bound
import VersionRange.Proofs.Canonical.Spelling
import VersionRange.Proofs.Version.Canonical
import VersionRange.Proofs.Expression.Notation
import VersionRange.Proofs.Expression.Range
import VersionRange.Proofs.Constraint.Tree
import VersionRange.Proofs.Constraint.Evaluate
import VersionRange.Proofs.Constraint.Overlap
import VersionRange.Proofs.Constraint.Symmetry
import VersionRange.Proofs.Order.Sort
import VersionRange.Proofs.Query.Sort
import VersionRange.Proofs.Canonical.Readable
import VersionRange.Proofs.Expression.Parts
import VersionRange.Proofs.Expression.Readable
import VersionRange.Proofs.Query.Readable
import VersionRange.Proofs.Version.RoundTrip
import VersionRange.Proofs.Query.Selection
import VersionRange.Proofs.Expression.Shape
import VersionRange.Proofs.Session.History
import VersionRange.Proofs.Session.Isolation
import VersionRange.Proofs.Expression.Collapse
import VersionRange.Proofs.Expression.Comparison
import VersionRange.Proofs.Expression.Hyphen
import VersionRange.Proofs.Canonical.Surface
import VersionRange.Proofs.Canonical.Calendar
import VersionRange.Proofs.Version.Chronology
import VersionRange.Proofs.Expression.Reference
import VersionRange.Proofs.Canonical.Build
import VersionRange.Proofs.Canonical.Ending
import VersionRange.Proofs.Expression.Marks
import VersionRange.Proofs.Expression.Agreement
import VersionRange.Proofs.Expression.Decoration
import VersionRange.Proofs.Canonical.Maturity
import VersionRange.Proofs.Order.Stability
import VersionRange.Proofs.Canonical.Report
import VersionRange.Proofs.Expression.Report
import VersionRange.Proofs.Canonical.Row
import VersionRange.Proofs.Expression.Rendered
import VersionRange.Proofs.Version.Unique
import VersionRange.Proofs.Context
import VersionRange.Proofs.Log
