import HelpAudit.CommandLine.Arguments
import HelpAudit.CommandLine.Run
import HelpAudit.Decimal.Shortest
import HelpAudit.FilePath
import HelpAudit.Header
import HelpAudit.Index.Load
import HelpAudit.Json.Printer
import HelpAudit.Json.Reader
import HelpAudit.Lint
import HelpAudit.Main
import HelpAudit.Markup.Body
import HelpAudit.Markup.Position
import HelpAudit.Markup.Span
import HelpAudit.NameMap
import HelpAudit.Proofs.CommandLine.Outcome
import HelpAudit.Proofs.Glob
import HelpAudit.Proofs.Header.Date
import HelpAudit.Proofs.Header.Grammar
import HelpAudit.Proofs.Index.Draft
import HelpAudit.Proofs.Index.Growth
import HelpAudit.Proofs.Index.Identity
import HelpAudit.Proofs.Index.Load
import HelpAudit.Proofs.Index.Lookup
import HelpAudit.Proofs.Index.Outline
import HelpAudit.Proofs.Index.Precedence
import HelpAudit.Proofs.Index.Promotion
import HelpAudit.Proofs.Index.Reached
import HelpAudit.Proofs.Index.Root
import HelpAudit.Proofs.Index.Validity
import HelpAudit.Proofs.Index.Walk
import HelpAudit.Proofs.Join
import HelpAudit.Proofs.Lint.Catalog
import HelpAudit.Proofs.Lint.Clean
import HelpAudit.Proofs.Lint.Disk
import HelpAudit.Proofs.Lint.Order
import HelpAudit.Proofs.Lint.Place
import HelpAudit.Proofs.Lint.Reports
import HelpAudit.Proofs.Lint.Scope
import HelpAudit.Proofs.Markup.Candidate
import HelpAudit.Proofs.Markup.Hidden
import HelpAudit.Proofs.Markup.Line
import HelpAudit.Proofs.Markup.LineIndex
import HelpAudit.Proofs.Markup.Occurrence
import HelpAudit.Proofs.Markup.Position
import HelpAudit.Proofs.Markup.Shape
import HelpAudit.Proofs.Markup.Written
import HelpAudit.Proofs.Report.Attribution
import HelpAudit.Proofs.Report.Colour
import HelpAudit.Proofs.Report.Group
import HelpAudit.Proofs.Report.Jump
import HelpAudit.Proofs.Report.Message
import HelpAudit.Proofs.Report.RoundTrip
import HelpAudit.Proofs.Resource
import HelpAudit.Proofs.Rule.Anchor
import HelpAudit.Proofs.Rule.AnchorConflict
import HelpAudit.Proofs.Rule.AnchorVerdict
import HelpAudit.Proofs.Rule.ContentsCoverage
import HelpAudit.Proofs.Rule.Declared
import HelpAudit.Proofs.Rule.Link
import HelpAudit.Proofs.Rule.LinkVerdict
import HelpAudit.Proofs.Rule.MissingSource
import HelpAudit.Proofs.Rule.Orphan
import HelpAudit.Proofs.Rule.SourceDifference
import HelpAudit.Proofs.Settings.Discovery
import HelpAudit.Proofs.Settings.Precedence
import HelpAudit.Proofs.Source.History
import HelpAudit.Proofs.Source.Layered
import HelpAudit.Proofs.Source.Memory
import HelpAudit.Proofs.Source.Named
import HelpAudit.Proofs.Store.Account
import HelpAudit.Proofs.Store.Gather
import HelpAudit.Proofs.Store.Reload
import HelpAudit.Proofs.Store.Rescan
import HelpAudit.Proofs.Store.Session
import HelpAudit.Proofs.Target.IndexFile
import HelpAudit.Proofs.Target.Owner
import HelpAudit.Report.Json
import HelpAudit.Report.Jump
import HelpAudit.Report.Text
import HelpAudit.Settings.Basic
import HelpAudit.Settings.Discovery
import HelpAudit.Settings.Setup
import HelpAudit.Source.Disk
import HelpAudit.Source.Memory
import HelpAudit.Text.Quoted
import HelpAudit.Toml.Document
import HelpAudit.Yaml.Cursor
import HelpAudit.Yaml.Node
import HelpAudit.Yaml.Scalar
import HelpAudit.Yaml.Tag
import HelpAudit.Yaml.Token
