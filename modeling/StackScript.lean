import StackScript.Main
import StackScript.Shell.Folder
import StackScript.Proofs.Shell.Build
import StackScript.Trace
import StackScript.Proofs.Grammar.Numeral
import StackScript.Proofs.Fallible
import StackScript.Proofs.Grammar.Basic
import StackScript.Proofs.Text.Scan
import StackScript.Proofs.Grammar.Operand
import StackScript.Proofs.Grammar.Line
import StackScript.Proofs.Assembly.Passes
import StackScript.Proofs.Text.Line
import StackScript.Proofs.Assembly.Reading
import StackScript.Proofs.Assembly.Acceptance
import StackScript.Proofs.Assembly.Labels
import StackScript.Proofs.Machine.Exec
import StackScript.Proofs.Machine.Run
import StackScript.Proofs.Expression.Basic
import StackScript.Proofs.Expression.Compile
import StackScript.Proofs.Expression.Run
import StackScript.Proofs.Binary.Reads
import StackScript.Proofs.Binary.RoundTrip
import StackScript.Proofs.Machine.StepLimit
import StackScript.Proofs.Machine.Capacity
import StackScript.Proofs.Machine.Depth
import StackScript.Proofs.Number.RoundTrip
import StackScript.Proofs.Program.Source
import StackScript.Proofs.Machine.Faults
import StackScript.Proofs.Machine.Control
import StackScript.Proofs.Assembly.Joined
import StackScript.Proofs.Machine.Relocation
import StackScript.Proofs.Program.Concatenation
import StackScript.Proofs.Program.Insertion
import StackScript.Proofs.Machine.Requests
import StackScript.Proofs.Machine.Variables
import StackScript.Proofs.Assembly.Diagnosis
import StackScript.Proofs.Assembly.FirstFault
import StackScript.Proofs.Binary.Truncation
import StackScript.Proofs.Binary.Spelling
import StackScript.Proofs.Program.Text
import StackScript.Proofs.Program.Listing
import StackScript.Proofs.Binary.Compiled
import StackScript.Proofs.Shell.Arguments
import StackScript.Proofs.Shell.Folder
import StackScript.Proofs.Assembly.LineBreaks
import StackScript.Proofs.Assembly.Layout
import StackScript.Proofs.Machine.Forward
import StackScript.Proofs.Machine.Registers
import StackScript.Proofs.Program.Banners
import StackScript.Proofs.Instr.Lookup
import StackScript.Proofs.Text.Longest
import StackScript.Proofs.Text.Cursor
