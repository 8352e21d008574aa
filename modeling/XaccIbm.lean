import XaccIbm.Lib.StdMap
import XaccIbm.Lib.Exec
import XaccIbm.IR
import XaccIbm.OpenQasmVisitor.Visit
import XaccIbm.OpenQasm.Program
import XaccIbm.OpenQasmVisitor.Emission
import XaccIbm.Lib.Decimal
import XaccIbm.OpenQasmVisitor.Guards
import XaccIbm.OpenQasmVisitor.History
import XaccIbm.Lib.Json
import XaccIbm.OpenQasmVisitor.Operations
import XaccIbm.Lib.Rotations
import XaccIbm.Unitary
import XaccIbm.OpenQasmVisitor.Translation
import XaccIbm.Accelerator.Buffer
import XaccIbm.Accelerator.Submission
import XaccIbm.Lib.StdString
import XaccIbm.Accelerator.Decode
import XaccIbm.Accelerator.Outcomes
import XaccIbm.LocalIBMAccelerator.Execute
import XaccIbm.LocalIBMAccelerator.Batch
import XaccIbm.OpenPulseVisitor
import XaccIbm.IBMAccelerator.ProcessInput
import XaccIbm.IBMAccelerator.ProcessResponse
import XaccIbm.Lib.Ledger
import XaccIbm.IBMAccelerator.Effects
import XaccIbm.IBMAccelerator.Results
import XaccIbm.IBMAccelerator.Names
import XaccIbm.IBMAccelerator.Backends
import XaccIbm.IBMAccelerator.Decoders
import XaccIbm.LocalIBMAccelerator.Effects
import XaccIbm.Accelerator.Failures
import XaccIbm.Lib.Lexing
import XaccIbm.Lib.Traverse
import XaccIbm.OpenQasm.Token
import XaccIbm.OpenQasm.Grammar
import XaccIbm.OQASMCompiler.Listener
import XaccIbm.OQASMCompiler.Walk
import XaccIbm.OQASMCompiler.Registry
import XaccIbm.OQASMCompiler.Contexts
import XaccIbm.OQASMCompiler.Qubits
import XaccIbm.OQASMCompiler.Conditionals
import XaccIbm.OQASMCompiler.GateDecls
import XaccIbm.OQASMCompiler.Kernels
import XaccIbm.Lib.Words
import XaccIbm.OQASMCompiler.Calls
import XaccIbm.OpenQasmVisitor.Scopes
import XaccIbm.OQASMCompiler.Translate
import XaccIbm.OQASMCompiler.Sentence
import XaccIbm.OpenQasm.Spacing
import XaccIbm.OpenQasm.Spelling
import XaccIbm.OpenQasm.Statements
import XaccIbm.OpenQasm.Parsing
import XaccIbm.OQASMCompiler.Gates
import XaccIbm.OQASMCompiler.ReadBack
import XaccIbm.OQASMCompiler.Functions
import XaccIbm.OQASMCompiler.RoundTrip
import XaccIbm.OQASMCompiler.Qelib
import XaccIbm.Lib.Wires
import XaccIbm.IBMIRTransformation.Transform
import XaccIbm.IBMIRTransformation.Rewriting
import XaccIbm.IBMIRTransformation.Equivalence
import XaccIbm.Lib.Tally
import XaccIbm.Accelerator.Counts
import XaccIbm.Lib.JsonTokens
import XaccIbm.Lib.JsonText
import XaccIbm.LocalIBMAccelerator.Circuits
import XaccIbm.IBMAccelerator.ApiKey
import XaccIbm.IBMAccelerator.JobText
import XaccIbm.IBMAccelerator.QasmJob
import XaccIbm.IBMAccelerator.PulseJob
import XaccIbm.Lib.Brackets
import XaccIbm.OQASMCompiler.Source
import XaccIbm.Accelerator.Bounds
import XaccIbm.IBMAccelerator.Polling
import XaccIbm.IBMAccelerator.Initialize
import XaccIbm.IBMAccelerator.Initialized
import XaccIbm.IBMAccelerator.Device
import XaccIbm.IBMAccelerator.Reachable
import XaccIbm.IBMAccelerator.Queries
import XaccIbm.IBMAccelerator.Registry
import XaccIbm.Lib.Supply
import XaccIbm.IBMAccelerator.Conversation
import XaccIbm.IBMAccelerator.Submitting
import XaccIbm.Lib.Feedback
import XaccIbm.OpenQasmVisitor.Feedback
import XaccIbm.IBMIRTransformation.Mapped
import XaccIbm.Accelerator.Sharing
import XaccIbm.IBMAccelerator.Returning
import XaccIbm.OQASMCompiler.Submitted
import XaccIbm.Accelerator.Readout
import XaccIbm.Accelerator.Readout
