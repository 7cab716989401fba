import X64.CommandLine
import X64.Expectation
import X64.Fibonacci
import X64.Json.Program
import X64.Json.State
import X64.Main
import X64.Proofs.Fibonacci.Run
import X64.Proofs.Launch.StartRoutine
import X64.Proofs.Machine.Run
import X64.Proofs.Source.Listing
import X64.Proofs.Branching
import X64.Proofs.Machine.InPlace
import X64.Proofs.Machine.Soundness
import X64.Proofs.Source.Concatenation
import X64.Proofs.Machine.Trace
import X64.Proofs.Source.Insertion
import X64.Proofs.Json.Edits
import X64.Proofs.Launch.Loading
import X64.Proofs.Launch.SourceEnd
import X64.Proofs.Source.OperandList
import X64.Proofs.Machine.ReturnAddress
import X64.Proofs.Effect.Arithmetic
import X64.Proofs.Effect.Shift
import X64.Proofs.Stack.Nesting
import X64.Proofs.Effect.Copy
import X64.Proofs.Effect.Outcome
import X64.Proofs.Source.Diagnosis
import X64.Proofs.Source.Reference
import X64.Proofs.Fibonacci.Sequence
import X64.Proofs.Memory.ByteMap
import X64.Proofs.Expectation
import X64.Proofs.Expectation.Visibility
import X64.Proofs.Source.Spelling
import X64.Proofs.Source.Comment
import X64.Proofs.State
