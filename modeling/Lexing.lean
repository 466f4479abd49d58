import Lexing.Token.Select
import Lexing.Report
import Lexing.Lexeme
import Lexing.Extent
import Lexing.Wire.Message
import Lexing.Wire.Grammar
import Lexing.Runtime
import Lexing.Proofs.LineColumn
import Lexing.Proofs.Placement
import Lexing.Proofs.Partition
import Lexing.Proofs.StartPosition
import Lexing.Proofs.LongestMatch
import Lexing.Proofs.Text.Utf8RoundTrip
import Lexing.Proofs.Text.Utf8Soundness
import Lexing.Proofs.Wire.Consumption
import Lexing.Proofs.Wire.WrittenItem
import Lexing.Proofs.Wire.RoundTrip
import Lexing.Proofs.Wire.Following
import Lexing.Proofs.Wire.ItemForms
import Lexing.Proofs.Wire.Acceptance
import Lexing.Proofs.Diagnostics
import Lexing.Proofs.Wire.Continuation
import Lexing.Proofs.Adjacency
import Lexing.Proofs.Relocation
import Lexing.Proofs.Splitting
import Lexing.Proofs.Recorded
import Lexing.Proofs.CommentStripping
import Lexing.Proofs.Extension
import Lexing.Proofs.Wire.Refusing
import Lexing.Proofs.Wire.ShortestForm
import Lexing.Proofs.Wire.Nesting
import Lexing.Proofs.Wire.FailureKinds
import Lexing.Proofs.Logging
import Lexing.Proofs.Relisting
import Lexing.Proofs.Stacking
import Lexing.Proofs.Wire.FirstFlaw
import Lexing.Proofs.LiteralExtent
import Lexing.Proofs.Wire.Apartness
import Lexing.Proofs.CommentBody
import Lexing.Proofs.Text.Utf8Faults
import Lexing.Proofs.Wire.TextField
import Lexing.Proofs.Lossless
import Lexing.Proofs.Text.Unquoting
import Lexing.Proofs.QuotedLiteral
import Lexing.Proofs.Wire.Completion
import Lexing.Proofs.Wire.Awaiting
import Lexing.Proofs.Wire.SkipOutcome
