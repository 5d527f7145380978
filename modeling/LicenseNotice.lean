import LicenseNotice.Main
import LicenseNotice.Proofs.Graph.Lookup
import LicenseNotice.Proofs.Refusal
import LicenseNotice.Proofs.Graph.Links
import LicenseNotice.Proofs.Resolve.Expansion
import LicenseNotice.Proofs.Resolve.Attachment
import LicenseNotice.Proofs.Resolve.Shipped
import LicenseNotice.Proofs.Resolve.Walk
import LicenseNotice.Proofs.Resolution
import LicenseNotice.Proofs.Resolve.Stages
import LicenseNotice.Proofs.Resolve.Obligations
import LicenseNotice.Proofs.Resolve.Relevance
import LicenseNotice.Proofs.Resolve.Success
import LicenseNotice.Proofs.Section.Index
import LicenseNotice.Proofs.Text.ByteOrder
import LicenseNotice.Proofs.Section.Grouping
import LicenseNotice.Proofs.Section.Order
import LicenseNotice.Proofs.Section.Reordering
import LicenseNotice.Proofs.Resolve.Discovery
import LicenseNotice.Proofs.Resolve.Roots
import LicenseNotice.Proofs.Resolve.Lookups
import LicenseNotice.Proofs.Manifest.Merge
import LicenseNotice.Proofs.Manifest.Rearranging
import LicenseNotice.Proofs.Resolve.Termination
import LicenseNotice.Proofs.Resolve.Identity
import LicenseNotice.Proofs.Json.RoundTrip
import LicenseNotice.Proofs.Report.Json
import LicenseNotice.Proofs.Report.Lines
import LicenseNotice.Proofs.Report.Leads
import LicenseNotice.Proofs.Codec.Target
import LicenseNotice.Proofs.Manifest.RoundTrip
import LicenseNotice.Proofs.Resolve.Gathering
import LicenseNotice.Proofs.Resolve.Collecting
import LicenseNotice.Proofs.Command
import LicenseNotice.Proofs.InstallPath
import LicenseNotice.Proofs.InstallPath.Normal
import LicenseNotice.Proofs.Resolve.Locations
import LicenseNotice.Proofs.Resolve.Preorder
import LicenseNotice.Proofs.Text.Trimming
import LicenseNotice.Proofs.Manifest.Violation
import LicenseNotice.Proofs.Resolve.Traversal
import LicenseNotice.Proofs.Resolve.WithoutConditions
import LicenseNotice.Proofs.Resolve.Members
import LicenseNotice.Proofs.Resolve.OutputRoot
import LicenseNotice.Proofs.LibraryName
import LicenseNotice.Proofs.Resolve.Libraries
import LicenseNotice.Proofs.Location
import LicenseNotice.Proofs.FileSystem.Session
import LicenseNotice.Proofs.FileSystem.Watch
import LicenseNotice.Proofs.LicenseTexts
import LicenseNotice.Proofs.Report.Texts
import LicenseNotice.Proofs.Graph.History
import LicenseNotice.Proofs.Resolve.Visits
import LicenseNotice.Proofs.Resolution.History
import LicenseNotice.Proofs.LibraryName.Project
