import StackMachine.Boundary.Calls
import StackMachine.Boundary.Header
import StackMachine.CommandLine.Respond
import StackMachine.Main
import StackMachine.Proofs.Assembly.Denotation
import StackMachine.Proofs.Assembly.Elements
import StackMachine.Proofs.Bytes.Slice
import StackMachine.Proofs.Bytes.Word
import StackMachine.Proofs.Image.Building
import StackMachine.Proofs.Image.Code
import StackMachine.Proofs.Image.ConstantPool
import StackMachine.Proofs.Image.Layout
import StackMachine.Proofs.Image.Outline
import StackMachine.Proofs.Image.SectionTable
import StackMachine.Proofs.Instruction.Codec
import StackMachine.Proofs.Machine.Activations
import StackMachine.Proofs.Machine.CallFrame
import StackMachine.Proofs.Machine.Fuel
import StackMachine.Proofs.Machine.Guarded
import StackMachine.Proofs.Machine.Isolation
import StackMachine.Proofs.Image.Loading
import StackMachine.Proofs.Text.Numeral
import StackMachine.Proofs.Number.Rounding
import StackMachine.Proofs.Number.Shortest
import StackMachine.Proofs.Number.Text
import StackMachine.Proofs.Instruction.Text
import StackMachine.Proofs.Image.Listing
import StackMachine.Proofs.Assembly.Reassembly
import StackMachine.Proofs.Machine.Reuse
import StackMachine.Proofs.Machine.Events
import StackMachine.Proofs.Machine.Limits
import StackMachine.Proofs.Image.Bounds
import StackMachine.Proofs.Image.Rejection
import StackMachine.Proofs.Session
import StackMachine.Proofs.Image.Lookup
import StackMachine.Proofs.Machine.Provenance
import StackMachine.Proofs.Machine.SameCode
import StackMachine.Proofs.Boundary.Calls
import StackMachine.Proofs.Machine.Relocation
import StackMachine.Proofs.Image.Insertion
import StackMachine.Proofs.Assembly.Insertion
import StackMachine.Proofs.Assembly.Classification
import StackMachine.Proofs.Assembly.Comments
import StackMachine.Proofs.Assembly.Constants
import StackMachine.Proofs.Assembly.Errors
import StackMachine.Proofs.Assembly.Literal
import StackMachine.Proofs.Assembly.Targets
import StackMachine.Proofs.Machine.Faults
import StackMachine.Proofs.Image.Lines
import StackMachine.Proofs.Image.Gaps
import StackMachine.Proofs.Trace
import StackMachine.Proofs.Image.BuildErrors
import StackMachine.Proofs.Trace.Nesting
import StackMachine.Proofs.Colours
import StackMachine.Proofs.Machine.Integers
import StackMachine.Proofs.Machine.Comparisons
import StackMachine.Proofs.Number.Order
