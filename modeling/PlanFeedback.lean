import PlanFeedback.Advice.Codec
import PlanFeedback.Advice.Directives
import PlanFeedback.Advice.Leading
import PlanFeedback.Advice.Method
import PlanFeedback.Advice.Shape
import PlanFeedback.Advice.Trace
import PlanFeedback.Command.Help
import PlanFeedback.Command.Host
import PlanFeedback.Command.Request
import PlanFeedback.Command.Run
import PlanFeedback.Command.Tree
import PlanFeedback.Config.Basic
import PlanFeedback.Config.LogLevel
import PlanFeedback.Config.Path
import PlanFeedback.Decimal.Binary
import PlanFeedback.Decimal.Numeral
import PlanFeedback.Decimal.Shortest
import PlanFeedback.Decimal.Text
import PlanFeedback.Error
import PlanFeedback.Feedback.Execution
import PlanFeedback.Feedback.Loop
import PlanFeedback.Feedback.Report
import PlanFeedback.Feedback.Settings
import PlanFeedback.Hash.Blake3
import PlanFeedback.Hash.Digest
import PlanFeedback.Hash.Murmur
import PlanFeedback.Json.Basic
import PlanFeedback.Json.Number
import PlanFeedback.Json.Parser
import PlanFeedback.Json.Printer
import PlanFeedback.Json.Reader
import PlanFeedback.Json.Token
import PlanFeedback.Main
import PlanFeedback.Pattern.Basic
import PlanFeedback.Pattern.Bracket
import PlanFeedback.Pattern.Escape
import PlanFeedback.Pattern.Property
import PlanFeedback.Plan.Basic
import PlanFeedback.Plan.Codec
import PlanFeedback.Plan.Edge
import PlanFeedback.Plan.Identifier
import PlanFeedback.Plan.IndexSet
import PlanFeedback.Plan.RangeTable
import PlanFeedback.Plan.Walk
import PlanFeedback.Proofs.Agreement
import PlanFeedback.Proofs.Auxiliary
import PlanFeedback.Proofs.Blanking
import PlanFeedback.Proofs.Collapse
import PlanFeedback.Proofs.Directives
import PlanFeedback.Proofs.Entries
import PlanFeedback.Proofs.Equivalence
import PlanFeedback.Proofs.FeedbackLog
import PlanFeedback.Proofs.FloatText
import PlanFeedback.Proofs.Gap
import PlanFeedback.Proofs.Grammar
import PlanFeedback.Proofs.Handling
import PlanFeedback.Proofs.Hexadecimal
import PlanFeedback.Proofs.Hidden
import PlanFeedback.Proofs.HintText
import PlanFeedback.Proofs.History
import PlanFeedback.Proofs.HistoryCommand
import PlanFeedback.Proofs.Identifier
import PlanFeedback.Proofs.Indexed
import PlanFeedback.Proofs.Indexes
import PlanFeedback.Proofs.JoinTree
import PlanFeedback.Proofs.Journal
import PlanFeedback.Proofs.JsonNumber
import PlanFeedback.Proofs.JsonText
import PlanFeedback.Proofs.Key
import PlanFeedback.Proofs.Layout
import PlanFeedback.Proofs.Listing
import PlanFeedback.Proofs.LiteralExtent
import PlanFeedback.Proofs.Lookup
import PlanFeedback.Proofs.Memory
import PlanFeedback.Proofs.Mixing
import PlanFeedback.Proofs.Naming
import PlanFeedback.Proofs.Nearest
import PlanFeedback.Proofs.Normalization
import PlanFeedback.Proofs.Numeral
import PlanFeedback.Proofs.PassThrough
import PlanFeedback.Proofs.Qualification
import PlanFeedback.Proofs.Reachability
import PlanFeedback.Proofs.RecordCodec
import PlanFeedback.Proofs.RecordLog
import PlanFeedback.Proofs.Refusal
import PlanFeedback.Proofs.Replacement
import PlanFeedback.Proofs.ReportText
import PlanFeedback.Proofs.Request
import PlanFeedback.Proofs.RoundTrip
import PlanFeedback.Proofs.Rounding
import PlanFeedback.Proofs.ScanText
import PlanFeedback.Proofs.Separation
import PlanFeedback.Proofs.Shape
import PlanFeedback.Proofs.Sign
import PlanFeedback.Proofs.Snapshot
import PlanFeedback.Proofs.Spans
import PlanFeedback.Proofs.Spine
import PlanFeedback.Proofs.StepFailure
import PlanFeedback.Proofs.Substitution
import PlanFeedback.Proofs.Table
import PlanFeedback.Proofs.TokenEnd
import PlanFeedback.Proofs.TokenExtent
import PlanFeedback.Proofs.TokenRun
import PlanFeedback.Proofs.Transaction
import PlanFeedback.Proofs.Utf8
import PlanFeedback.Proofs.Walk
import PlanFeedback.Query.Codec
import PlanFeedback.Query.Fingerprint
import PlanFeedback.Query.Literal
import PlanFeedback.Query.Normal
import PlanFeedback.Query.Scan
import PlanFeedback.Query.Source
import PlanFeedback.Query.Statement
import PlanFeedback.Store.Codec
import PlanFeedback.Store.Durable
import PlanFeedback.Store.Error
import PlanFeedback.Store.Fault
import PlanFeedback.Store.Key
import PlanFeedback.Store.Memory
import PlanFeedback.Store.Record
import PlanFeedback.Store.Repository
import PlanFeedback.Store.Snapshot
import PlanFeedback.Store.Table
import PlanFeedback.Text.Ascii
import PlanFeedback.Text.Blank
import PlanFeedback.Text.Utf8
import PlanFeedback.Time.Instant
import PlanFeedback.Time.Text
import PlanFeedback.Toml.Basic
import PlanFeedback.Toml.Parser
import PlanFeedback.Toml.Printer
import PlanFeedback.Toml.Reader
import PlanFeedback.Toml.Scalar
import PlanFeedback.Toml.Token
