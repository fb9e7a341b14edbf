import Lox.Span
import Lox.Number
import Lox.Text.CharClass
import Lox.Text.Alphabetic
import Lox.Text.Numeric
import Lox.Text.Blank
import Lox.Text.Graphic
import Lox.Text.Quoted
import Lox.Operator
import Lox.Value
import Lox.Token
import Lox.Token.Scan
import Lox.Program
import Lox.Program.Stream
import Lox.Program.Precedence
import Lox.Computation
import Lox.Program.Parse
import Lox.Program.Progress
import Lox.Program.Read
import Lox.Code.Opcode
import Lox.Code.Fault
import Lox.Code.Reader
import Lox.Code.CompileError
import Lox.Code.Constant
import Lox.Code.Chunk
import Lox.Code.Listing
import Lox.Code.Compiled
import Lox.Machine.Sink
import Lox.Machine
import Lox.Session
import Lox.Shell.Log
import Lox.Shell.Style
import Lox.Shell.Invocation
import Lox.Shell
import Lox.Shell.Dialogue
import Lox.Shell.Report
import Lox.Main
import Lox.Proofs.Induction
import Lox.Proofs.Assembly
import Lox.Proofs.Emission
import Lox.Proofs.Pool
import Lox.Proofs.Lookup
import Lox.Proofs.Layout
import Lox.Proofs.Double
import Lox.Proofs.Loading
import Lox.Proofs.Interning
import Lox.Proofs.Recompilation
import Lox.Proofs.Stepping
import Lox.Proofs.Lockstep
import Lox.Proofs.Evaluation
import Lox.Proofs.Failing
import Lox.Proofs.Scoping
import Lox.Proofs.Following
import Lox.Proofs.Preservation
import Lox.Proofs.Heights
import Lox.Proofs.Landing
import Lox.Proofs.ControlFlow
import Lox.Proofs.Boundaries
import Lox.Proofs.Discipline
import Lox.Proofs.Location
import Lox.Proofs.Increments
import Lox.Proofs.Grammar
import Lox.Proofs.Streams
import Lox.Proofs.ExpressionSoundness
import Lox.Proofs.Extents
import Lox.Proofs.Surface
import Lox.Proofs.Giving
import Lox.Proofs.Writing
import Lox.Proofs.Soundness
import Lox.Proofs.ExpressionCompleteness
import Lox.Proofs.Rereading
import Lox.Proofs.Completeness
import Lox.Proofs.Limits
import Lox.Proofs.Compilability
import Lox.Proofs.Lexemes
import Lox.Proofs.Positions
import Lox.Proofs.Braces
import Lox.Proofs.Likeness
import Lox.Proofs.Resumption
import Lox.Proofs.Recovery
import Lox.Proofs.Entries
import Lox.Proofs.Confinement
import Lox.Proofs.Failures
import Lox.Proofs.Truncation
import Lox.Proofs.LongestMatch
import Lox.Proofs.Rounding
import Lox.Proofs.ShortestDigits
import Lox.Proofs.Rendering
import Lox.Proofs.Classes
import Lox.Proofs.Ordering
import Lox.Proofs.Rounds
import Lox.Proofs.Spans
import Lox.Proofs.Unfolding
import Lox.Proofs.Patching
import Lox.Proofs.Listings
import Lox.Proofs.Agreement
import Lox.Proofs.NumberText
import Lox.Proofs.Legibility
import Lox.Proofs.Sessions
import Lox.Proofs.Decoding
import Lox.Proofs.Recording
import Lox.Proofs.Appending
