import LoxScan.Fault
import LoxScan.Text.Utf8
import LoxScan.Text.Slice
import LoxScan.Text.Decode
import LoxScan.Span
import LoxScan.Number.Binary64
import LoxScan.Number.Rounding
import LoxScan.Number.Decimal
import LoxScan.Number.Shortest
import LoxScan.Number.Layout
import LoxScan.Token.Keyword
import LoxScan.Token.Kind
import LoxScan.Token.Literal
import LoxScan.Token.Basic
import LoxScan.Token.Tokens
import LoxScan.Diagnostic
import LoxScan.Outline
import LoxScan.Outline.Lexical
import LoxScan.Source
import LoxScan.Cursor
import LoxScan.Lexeme
import LoxScan.Scanner
import LoxScan.Lexing
import LoxScan.SystemError
import LoxScan.Stream.Sink
import LoxScan.Stream.Input
import LoxScan.Path
import LoxScan.FileTree
import LoxScan.Failure
import LoxScan.Session
import LoxScan.Prompt
import LoxScan.Script
import LoxScan.Command
import LoxScan.Main
import LoxScan.Proofs.Automaton
import LoxScan.Proofs.Faultless
import LoxScan.Proofs.Longest
import LoxScan.Proofs.Tiling
import LoxScan.Proofs.LineNumbers
import LoxScan.Proofs.Concatenation
import LoxScan.Proofs.Spacing
import LoxScan.Proofs.Blanking
import LoxScan.Proofs.Restart
import LoxScan.Proofs.Lookahead
import LoxScan.Proofs.Delivery
import LoxScan.Proofs.Transcript
import LoxScan.Proofs.LineEndings
import LoxScan.Proofs.Listing
import LoxScan.Proofs.IllFormed
import LoxScan.Proofs.Sessions
import LoxScan.Proofs.TextLines
import LoxScan.Proofs.LineByLine
import LoxScan.Proofs.InputEndings
import LoxScan.Proofs.Repair
import LoxScan.Proofs.Pulling
import LoxScan.Proofs.Literals
import LoxScan.Proofs.ReservedWords
import LoxScan.Proofs.Operations
import LoxScan.Proofs.Fewest
import LoxScan.Proofs.Rereading
