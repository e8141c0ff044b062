import EnumForms.Accessors
import EnumForms.Attempt
import EnumForms.Binary64
import EnumForms.Binary64.Read
import EnumForms.Binary64.Shortest
import EnumForms.Command
import EnumForms.Command.Line
import EnumForms.Command.Run
import EnumForms.Decimal
import EnumForms.Decimal.Read
import EnumForms.Declaration
import EnumForms.Diagnostic
import EnumForms.Diagnostic.Collector
import EnumForms.Escape
import EnumForms.Expr
import EnumForms.Folder
import EnumForms.Form
import EnumForms.Form.Source
import EnumForms.Journal
import EnumForms.Json
import EnumForms.Json.Reader
import EnumForms.Main
import EnumForms.Module
import EnumForms.Node
import EnumForms.Position
import EnumForms.ReadError.Message
import EnumForms.Reader
import EnumForms.Report
import EnumForms.Table
import EnumForms.Term
import EnumForms.Term.Inspect
import EnumForms.Term.Printer
import EnumForms.Text
import EnumForms.Text.Lines
import EnumForms.Text.Printable
import EnumForms.Text.Terminal
import EnumForms.Text.Uppercase
import EnumForms.Text.Utf8
import EnumForms.Token
import EnumForms.Token.Cut
import EnumForms.Transformation
import EnumForms.Proofs.Lookup
import EnumForms.Proofs.Access
import EnumForms.Proofs.Scan
import EnumForms.Proofs.Steps
import EnumForms.Proofs.Grammar
import EnumForms.Proofs.Escapes
import EnumForms.Proofs.Numerals
import EnumForms.Proofs.Printing
import EnumForms.Proofs.Registry
import EnumForms.Proofs.Units
import EnumForms.Proofs.Inverse
import EnumForms.Proofs.Encoding
import EnumForms.Proofs.Verdicts
import EnumForms.Proofs.Assembly
import EnumForms.Proofs.Calls
import EnumForms.Proofs.Generated
import EnumForms.Proofs.Twice
import EnumForms.Proofs.Characters
import EnumForms.Proofs.Reported
import EnumForms.Proofs.Local
import EnumForms.Proofs.Front
import EnumForms.Proofs.Completion
import EnumForms.Proofs.Rounding
import EnumForms.Proofs.Shortest
import EnumForms.Proofs.FloatNumeral
import EnumForms.Proofs.FloatText
import EnumForms.Proofs.Readable
import EnumForms.Proofs.Infinite
import EnumForms.Proofs.RoundTrip
import EnumForms.Proofs.Framed
import EnumForms.Proofs.Places
import EnumForms.Proofs.Concatenation
import EnumForms.Proofs.Padding
import EnumForms.Proofs.Utf8
import EnumForms.Proofs.LineEnds
import EnumForms.Proofs.Folders
import EnumForms.Proofs.Inherited
import EnumForms.Proofs.Written
import EnumForms.Proofs.Output
import EnumForms.Proofs.ListSource
import EnumForms.Proofs.Findings
import EnumForms.Proofs.Bookkeeping
import EnumForms.Proofs.Encodable
import EnumForms.Proofs.Exported
import EnumForms.Proofs.Endings
import EnumForms.Proofs.Codes
import EnumForms.Proofs.Signatures
import EnumForms.Proofs.Numbering
import EnumForms.Proofs.Kinds
import EnumForms.Proofs.Matching
import EnumForms.Proofs.Erasure
import EnumForms.Proofs.Meaning
import EnumForms.Proofs.Order
import EnumForms.Proofs.BasedIntegers
import EnumForms.Proofs.Literals
import EnumForms.Proofs.MissingDot
import EnumForms.Proofs.Rows
import EnumForms.Proofs.Caret
import EnumForms.Proofs.Exports
import EnumForms.Proofs.Channels
import EnumForms.Proofs.Window
