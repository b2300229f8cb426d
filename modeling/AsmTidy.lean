import AsmTidy.Text.Space
import AsmTidy.Text.UpperCase
import AsmTidy.Text.Digit
import AsmTidy.Text.Printable
import AsmTidy.Text.Quote
import AsmTidy.Mnemonic
import AsmTidy.Reading
import AsmTidy.Lexeme
import AsmTidy.Syntax
import AsmTidy.Syntax.Read
import AsmTidy.Layout
import AsmTidy.Source
import AsmTidy.ParseTree
import AsmTidy.Directive
import AsmTidy.Cli.Glob
import AsmTidy.Cli.Arguments
import AsmTidy.Cli.Help
import AsmTidy.Cli.Workspace
import AsmTidy.Cli.Run
import AsmTidy.Main
import AsmTidy.Proofs.Grammar
import AsmTidy.Proofs.Lexers
import AsmTidy.Proofs.Readers
import AsmTidy.Proofs.Acceptance
import AsmTidy.Proofs.Content
import AsmTidy.Proofs.DialectReading
import AsmTidy.Proofs.Colonless
import AsmTidy.Proofs.Directive
import AsmTidy.Proofs.Workspace
import AsmTidy.Proofs.Destinations
import AsmTidy.Proofs.Walk
import AsmTidy.Proofs.Recursive
import AsmTidy.Proofs.Frontier
import AsmTidy.Proofs.LineFrontier
import AsmTidy.Proofs.ErrorPosition
import AsmTidy.Proofs.Locality
import AsmTidy.Proofs.Preference
import AsmTidy.Proofs.CommentLayout
import AsmTidy.Proofs.Registers
import AsmTidy.Proofs.MacroLines
import AsmTidy.Proofs.StatementLayout
import AsmTidy.Proofs.ReadBack
import AsmTidy.Proofs.LastSplit
import AsmTidy.Proofs.RoundTrip
