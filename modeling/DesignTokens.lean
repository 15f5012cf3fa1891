import DesignTokens.CommandLine.Arguments
import DesignTokens.CommandLine.Change
import DesignTokens.CommandLine.Clock
import DesignTokens.CommandLine.Command
import DesignTokens.CommandLine.Inspect
import DesignTokens.CommandLine.Plan
import DesignTokens.Compliance.Advice
import DesignTokens.Compliance.Score
import DesignTokens.Compliance.SpacingLine
import DesignTokens.Compliance.Validation
import DesignTokens.Digest.Sha256
import DesignTokens.Failure
import DesignTokens.Files.Path
import DesignTokens.Files.Tree
import DesignTokens.Issue.Basic
import DesignTokens.Issue.Extraction
import DesignTokens.Issue.Finding
import DesignTokens.Issue.ThemeToken
import DesignTokens.Issue.Typography
import DesignTokens.Json.Basic
import DesignTokens.Json.Lexeme
import DesignTokens.Json.Number
import DesignTokens.Json.Parser
import DesignTokens.Json.Printer
import DesignTokens.Json.Reader
import DesignTokens.Main
import DesignTokens.MappingSet
import DesignTokens.Number.Binary64
import DesignTokens.Policy
import DesignTokens.Property
import DesignTokens.Record.Parse
import DesignTokens.Record.Read
import DesignTokens.Record.Write
import DesignTokens.Response.Attempt
import DesignTokens.Response.Braces
import DesignTokens.Response.Component
import DesignTokens.Response.Fence
import DesignTokens.Response.Repair
import DesignTokens.Review.Record
import DesignTokens.Review.Session
import DesignTokens.Review.State
import DesignTokens.Rewrite.Apply
import DesignTokens.Rewrite.Color
import DesignTokens.Rewrite.Record
import DesignTokens.Rewrite.Reserved
import DesignTokens.Rewrite.Spacing
import DesignTokens.Rewrite.Variant
import DesignTokens.Source.Block
import DesignTokens.Source.Object
import DesignTokens.Source.Region
import DesignTokens.Source.Structure
import DesignTokens.Spec
import DesignTokens.Summary.Basic
import DesignTokens.Summary.Page
import DesignTokens.Text.Basic
import DesignTokens.Text.Chars
import DesignTokens.Text.Lines
import DesignTokens.Text.Pattern
import DesignTokens.Text.Position
import DesignTokens.Text.Slug
import DesignTokens.Token.Basic
import DesignTokens.Token.Editable
import DesignTokens.Token.Scan
import DesignTokens.Proofs.Json.Members
import DesignTokens.Proofs.MappingSet
import DesignTokens.Proofs.Review.Run
import DesignTokens.Proofs.Review.Stage
import DesignTokens.Proofs.Review.Invariant
import DesignTokens.Proofs.Review.History
import DesignTokens.Proofs.Review.Refusal
import DesignTokens.Proofs.Policy
import DesignTokens.Proofs.Rewrite.FreeName
import DesignTokens.Proofs.Rewrite.Reserved
import DesignTokens.Proofs.Source.Bracket
import DesignTokens.Proofs.Rewrite.Color
import DesignTokens.Proofs.Rewrite.ColorEdit
import DesignTokens.Proofs.Rewrite.Balance
import DesignTokens.Proofs.Rewrite.SiteKind
import DesignTokens.Proofs.Rewrite.Settled
import DesignTokens.Proofs.Json.Lexeme
import DesignTokens.Proofs.Json.RoundTrip
import DesignTokens.Proofs.Record.Spec
import DesignTokens.Proofs.Json.Compact
import DesignTokens.Proofs.Response.Search
import DesignTokens.Proofs.Response.Encoded
import DesignTokens.Proofs.Json.Strings
import DesignTokens.Proofs.Response.Repair
import DesignTokens.Proofs.Json.Escapes
import DesignTokens.Proofs.Response.Marks
import DesignTokens.Proofs.Response.TrailingComma
import DesignTokens.Proofs.Source.Reading
import DesignTokens.Proofs.Rewrite.Insertion
import DesignTokens.Proofs.Rewrite.VariantBalance
import DesignTokens.Proofs.Text.Trim
import DesignTokens.Proofs.Text.Word
import DesignTokens.Proofs.Issue.Ids
import DesignTokens.Proofs.Issue.Finding
import DesignTokens.Proofs.Issue.Extraction
import DesignTokens.Proofs.Compliance.SpacingLine
import DesignTokens.Proofs.Source.Entry
import DesignTokens.Proofs.Token.Place
import DesignTokens.Proofs.Rewrite.Survival
import DesignTokens.Proofs.Rewrite.SpacingFix
import DesignTokens.Proofs.Rewrite.Reference
import DesignTokens.Proofs.Rewrite.ColorFix
import DesignTokens.Proofs.Rewrite.InsertedName
import DesignTokens.Proofs.Rewrite.VariantFix
import DesignTokens.Proofs.Compliance.Score
import DesignTokens.Proofs.Compliance.Report
import DesignTokens.Proofs.Compliance.Rearranged
import DesignTokens.Proofs.Issue.Stable
import DesignTokens.Proofs.Issue.Recovery
import DesignTokens.Proofs.Issue.MissingValues
import DesignTokens.Proofs.Rewrite.Reversal
import DesignTokens.Proofs.Bytewise.Apply
import DesignTokens.Proofs.Rewrite.Dangling
import DesignTokens.Proofs.Rewrite.Audit
import DesignTokens.Proofs.Json.Indented
import DesignTokens.Proofs.Record.ReadBack
import DesignTokens.Proofs.Files.Tree
import DesignTokens.Proofs.CommandLine.Untouched
import DesignTokens.Proofs.Text.Slug
import DesignTokens.Proofs.CommandLine.Store
import DesignTokens.Proofs.Summary.Markup
import DesignTokens.Proofs.Token.Grammar
import DesignTokens.Proofs.Token.Occurrences
import DesignTokens.Proofs.Token.Search
import DesignTokens.Proofs.Token.Written
import DesignTokens.Proofs.Token.Replacement
import DesignTokens.Proofs.Token.Editable
import DesignTokens.Proofs.Text.LineColumn
import DesignTokens.Proofs.Token.Locator
import DesignTokens.Proofs.Token.Classify
import DesignTokens.Proofs.Token.SpacingShape
import DesignTokens.Proofs.Number.Nearest
import DesignTokens.Proofs.Token.Options
import DesignTokens.Proofs.Token.Denotation
import DesignTokens.Proofs.Token.Row
import DesignTokens.Proofs.Rewrite.SpacingPass
import DesignTokens.Proofs.Source.Piece
import DesignTokens.Proofs.Source.KeyReading
import DesignTokens.Proofs.Source.KeyPlace
import DesignTokens.Proofs.Source.Closed
import DesignTokens.Proofs.Source.Located
import DesignTokens.Proofs.Source.Spelled
import DesignTokens.Proofs.Rewrite.WrittenEntries
import DesignTokens.Proofs.Rewrite.ExtendedObject
import DesignTokens.Proofs.Rewrite.VariantSettled
import DesignTokens.Proofs.Rewrite.OnlyInserts
import DesignTokens.Proofs.Rewrite.WrittenKeys
import DesignTokens.Proofs.Number.Overflow
import DesignTokens.Proofs.Compliance.SpacingLength
import DesignTokens.Proofs.Issue.Coverage
import DesignTokens.Proofs.MappingSet.Chosen
import DesignTokens.Proofs.Source.BlockPlace
import DesignTokens.Proofs.Source.KeysInCode
import DesignTokens.Proofs.Rewrite.TakenName
