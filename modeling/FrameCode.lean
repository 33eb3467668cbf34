import FrameCode.Main
import FrameCode.Machine.Trace
import FrameCode.Proofs.Load
import FrameCode.Proofs.Renumber
import FrameCode.Proofs.Reachable
import FrameCode.Proofs.Text.Decimal
import FrameCode.Proofs.Text.Escape
import FrameCode.Proofs.Text.Layout
import FrameCode.Proofs.Node.Canonical
import FrameCode.Proofs.Source.Line
import FrameCode.Proofs.Source.RoundTrip
import FrameCode.Proofs.Calls
import FrameCode.Proofs.Correspondence
import FrameCode.Proofs.Frames
import FrameCode.Proofs.LockStep
import FrameCode.Proofs.Insertion
import FrameCode.Proofs.Failure
import FrameCode.Proofs.Expression
import FrameCode.Proofs.Repetition
import FrameCode.Proofs.StackForm
import FrameCode.Proofs.Forward
import FrameCode.Proofs.Globals
import FrameCode.Proofs.Text.Spelling
import FrameCode.Proofs.Node.Parts
import FrameCode.Proofs.Presentation
import FrameCode.Proofs.Source.Assembled
import FrameCode.Proofs.Source.Kinds
import FrameCode.Proofs.Streams
import FrameCode.Proofs.Unread
import FrameCode.Proofs.Diagnostics
import FrameCode.Proofs.Input
import FrameCode.Proofs.Source.Legal
import FrameCode.Proofs.Node.Faults
import FrameCode.Proofs.Refusal
import FrameCode.Proofs.Messages
import FrameCode.Proofs.CommandLine
import FrameCode.Proofs.Folder
import FrameCode.Proofs.Footprint
import FrameCode.Proofs.Precedence
import FrameCode.Proofs.Source.Relaid
import FrameCode.Proofs.Tally
import FrameCode.Proofs.Association
import FrameCode.Proofs.Text.Order
import FrameCode.Proofs.Comparison
import FrameCode.Proofs.Operation
import FrameCode.Proofs.Strings
import FrameCode.Proofs.Arithmetic
import FrameCode.Proofs.Text.Numeral
import FrameCode.Proofs.Numbers
import FrameCode.Proofs.Listing
import FrameCode.Proofs.Text.Pieces
