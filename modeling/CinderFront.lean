import CinderFront.Arguments
import CinderFront.Ascii
import CinderFront.ByteStream
import CinderFront.Cli
import CinderFront.Command
import CinderFront.Compilation
import CinderFront.Diagnostic
import CinderFront.Diagnostic.Backlog
import CinderFront.Diagnostic.Printer
import CinderFront.Diagnostic.Receiver
import CinderFront.Diagnostic.Report
import CinderFront.Effect
import CinderFront.FilePath
import CinderFront.FileTree
import CinderFront.LexicalError
import CinderFront.Listing
import CinderFront.Lookahead
import CinderFront.Main
import CinderFront.OperatorTable
import CinderFront.Output
import CinderFront.Position
import CinderFront.Proofs.Arguments
import CinderFront.Proofs.Ascii
import CinderFront.Proofs.Backlog
import CinderFront.Proofs.Capacity
import CinderFront.Proofs.CarriageReturn
import CinderFront.Proofs.CheckedReading
import CinderFront.Proofs.Compilation
import CinderFront.Proofs.Crlf
import CinderFront.Proofs.Cursor
import CinderFront.Proofs.Decoding
import CinderFront.Proofs.Decoration
import CinderFront.Proofs.Delivery
import CinderFront.Proofs.Description
import CinderFront.Proofs.Drain
import CinderFront.Proofs.Ending
import CinderFront.Proofs.Escape
import CinderFront.Proofs.EscapeAgreement
import CinderFront.Proofs.ExitStatus
import CinderFront.Proofs.Findings
import CinderFront.Proofs.Foresight
import CinderFront.Proofs.Imitation
import CinderFront.Proofs.Interning
import CinderFront.Proofs.Layout
import CinderFront.Proofs.Lexis
import CinderFront.Proofs.LineBreak
import CinderFront.Proofs.Listing
import CinderFront.Proofs.Literal
import CinderFront.Proofs.LiteralText
import CinderFront.Proofs.LongestMatch
import CinderFront.Proofs.Lookahead
import CinderFront.Proofs.MultiLine
import CinderFront.Proofs.OperatorTable
import CinderFront.Proofs.Passage
import CinderFront.Proofs.Payload
import CinderFront.Proofs.Position
import CinderFront.Proofs.Printer
import CinderFront.Proofs.Progress
import CinderFront.Proofs.Punctuation
import CinderFront.Proofs.Quoted
import CinderFront.Proofs.Reading
import CinderFront.Proofs.Recompilation
import CinderFront.Proofs.Redelivery
import CinderFront.Proofs.Resync
import CinderFront.Proofs.Retention
import CinderFront.Proofs.Room
import CinderFront.Proofs.RoundTrip
import CinderFront.Proofs.Run
import CinderFront.Proofs.Session
import CinderFront.Proofs.Shift
import CinderFront.Proofs.Sparing
import CinderFront.Proofs.Step
import CinderFront.Proofs.SymbolKeeping
import CinderFront.Proofs.SymbolTable
import CinderFront.Proofs.Trailing
import CinderFront.Proofs.Transition
import CinderFront.Proofs.Transport
import CinderFront.Proofs.Truncation
import CinderFront.Proofs.Uniform
import CinderFront.Proofs.Utf8
import CinderFront.Proofs.Word
import CinderFront.Punctuation
import CinderFront.Scanner.Basic
import CinderFront.Scanner.Lexeme
import CinderFront.Scanner.Stream
import CinderFront.Scanner.Transition
import CinderFront.SymbolTable
import CinderFront.Text.Affix
import CinderFront.Text.Escape
import CinderFront.Text.Numeral
import CinderFront.Text.Utf8
import CinderFront.Token
import CinderFront.Word
