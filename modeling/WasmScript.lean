import WasmScript.Catalogue
import WasmScript.CommandLine.Arguments
import WasmScript.CommandLine.Command
import WasmScript.CommandLine.Console
import WasmScript.Diagnostic
import WasmScript.Failure
import WasmScript.Fixture.Basic
import WasmScript.Fixture.Expected
import WasmScript.Fixture.Run
import WasmScript.Host.Assembly
import WasmScript.Host.Body
import WasmScript.Host.Buffer
import WasmScript.Host.Coerce
import WasmScript.Host.Convert
import WasmScript.Host.Declare
import WasmScript.Host.Finding
import WasmScript.Host.Generate
import WasmScript.Host.MemoryCall
import WasmScript.Host.ModuleObject
import WasmScript.Host.ModuleQuery
import WasmScript.Host.Node
import WasmScript.Host.NodeBuild
import WasmScript.Host.NodeBuilder
import WasmScript.Host.NodeScript
import WasmScript.Host.Options
import WasmScript.Host.Program
import WasmScript.Host.Readers
import WasmScript.Host.ScriptText
import WasmScript.Host.Value
import WasmScript.IR.Basic
import WasmScript.IR.Build
import WasmScript.IR.BuildError
import WasmScript.IR.Builder
import WasmScript.IR.FromHost
import WasmScript.Integer.Arithmetic
import WasmScript.Integer.Bits
import WasmScript.Integer.Leb128
import WasmScript.Json.Basic
import WasmScript.Json.Parser
import WasmScript.Json.Printer
import WasmScript.Main
import WasmScript.Memory
import WasmScript.Module.Access
import WasmScript.Module.Assembler
import WasmScript.Module.Basic
import WasmScript.Module.ByteBuffer
import WasmScript.Module.Code
import WasmScript.Module.Decode.Instruction
import WasmScript.Module.Decode.Module
import WasmScript.Module.DecodeError
import WasmScript.Module.NumericOp
import WasmScript.Module.Opcode
import WasmScript.Module.ReadStep
import WasmScript.Module.Reader
import WasmScript.Module.Section
import WasmScript.Number.Arithmetic
import WasmScript.Number.Basic
import WasmScript.Number.Decimal
import WasmScript.Number.Hexadecimal
import WasmScript.Number.Numeral
import WasmScript.Proofs.Accepted
import WasmScript.Proofs.Analysis
import WasmScript.Proofs.CommandLine.Clashes
import WasmScript.Proofs.CommandLine.Directories
import WasmScript.Proofs.CommandLine.Independence
import WasmScript.Proofs.CommandLine.Outputs
import WasmScript.Proofs.CommandLine.Places
import WasmScript.Proofs.CommandLine.Saving
import WasmScript.Proofs.CustomSections
import WasmScript.Proofs.Fixture.Comparison
import WasmScript.Proofs.Fixture.Reports
import WasmScript.Proofs.IR.Acceptance
import WasmScript.Proofs.IR.Blocks
import WasmScript.Proofs.IR.Branches
import WasmScript.Proofs.IR.DeadCode
import WasmScript.Proofs.IR.EffectOrder
import WasmScript.Proofs.IR.Faults
import WasmScript.Proofs.IR.Flow
import WasmScript.Proofs.IR.NestedSteps
import WasmScript.Proofs.IR.Offsets
import WasmScript.Proofs.IR.OtherBodies
import WasmScript.Proofs.IR.Passing
import WasmScript.Proofs.IR.PlacedStatements
import WasmScript.Proofs.IR.Plain
import WasmScript.Proofs.IR.Primitives
import WasmScript.Proofs.IR.Reach
import WasmScript.Proofs.IR.ScopedBodies
import WasmScript.Proofs.IR.Scoping
import WasmScript.Proofs.IR.Selects
import WasmScript.Proofs.IR.Sizes
import WasmScript.Proofs.IR.Steps
import WasmScript.Proofs.IR.Tables
import WasmScript.Proofs.IR.TypedBodies
import WasmScript.Proofs.IR.Typing
import WasmScript.Proofs.IR.Validation
import WasmScript.Proofs.Integer.Counting
import WasmScript.Proofs.Integer.Leb128
import WasmScript.Proofs.Integer.Meaning
import WasmScript.Proofs.Integer.Unbounded
import WasmScript.Proofs.Integer.Words
import WasmScript.Proofs.Memory
import WasmScript.Proofs.Memory.Contents
import WasmScript.Proofs.Memory.Ranges
import WasmScript.Proofs.Module.Accepts
import WasmScript.Proofs.Module.Assembling
import WasmScript.Proofs.Module.BlockTypes
import WasmScript.Proofs.Module.Buffers
import WasmScript.Proofs.Module.Confinement
import WasmScript.Proofs.Module.CustomSections
import WasmScript.Proofs.Module.Encoding
import WasmScript.Proofs.Module.FaultPlaces
import WasmScript.Proofs.Module.Framing
import WasmScript.Proofs.Module.Ensures
import WasmScript.Proofs.Module.IntegerLoops
import WasmScript.Proofs.Module.Integers
import WasmScript.Proofs.Module.Layout
import WasmScript.Proofs.Module.Locality
import WasmScript.Proofs.Module.Moving
import WasmScript.Proofs.Module.Names
import WasmScript.Proofs.Module.Nesting
import WasmScript.Proofs.Module.Positions
import WasmScript.Proofs.Module.Sections
import WasmScript.Proofs.Module.Walk
import WasmScript.Proofs.Module.WellFormed
import WasmScript.Proofs.Number.Sums
import WasmScript.Proofs.Number.Truncation
import WasmScript.Proofs.Number.Whole
import WasmScript.Proofs.Run.Agreement
import WasmScript.Proofs.Run.Arrivals
import WasmScript.Proofs.Run.BlockRuns
import WasmScript.Proofs.Run.Boundary
import WasmScript.Proofs.Run.Calls
import WasmScript.Proofs.Run.Drafts
import WasmScript.Proofs.Run.Entries
import WasmScript.Proofs.Run.Evaluation
import WasmScript.Proofs.Run.Execution
import WasmScript.Proofs.Run.Fits
import WasmScript.Proofs.Run.Growth
import WasmScript.Proofs.Run.Hosts
import WasmScript.Proofs.Run.Instances
import WasmScript.Proofs.Run.Linking
import WasmScript.Proofs.Run.Operands
import WasmScript.Proofs.Run.PlainSteps
import WasmScript.Proofs.Run.Quiet
import WasmScript.Proofs.Run.Refinement
import WasmScript.Proofs.Run.Results
import WasmScript.Proofs.Run.Safety
import WasmScript.Proofs.Run.Sharing
import WasmScript.Proofs.Run.Simulation
import WasmScript.Proofs.Run.StraightSteps
import WasmScript.Proofs.Script.Accesses
import WasmScript.Proofs.Script.DataSegments
import WasmScript.Proofs.Script.Declarations
import WasmScript.Proofs.Script.Execution
import WasmScript.Proofs.Script.Expressions
import WasmScript.Proofs.Script.Forms
import WasmScript.Proofs.Script.Grouping
import WasmScript.Proofs.Script.Programs
import WasmScript.Proofs.Script.QuotedNames
import WasmScript.Proofs.Script.Readers
import WasmScript.Proofs.Script.Readings
import WasmScript.Proofs.Script.Scoping
import WasmScript.Proofs.Script.Statements
import WasmScript.Proofs.Script.Switch
import WasmScript.Proofs.Sequences
import WasmScript.Proofs.Text.Brackets
import WasmScript.Proofs.Text.Hex
import WasmScript.Proofs.Text.Literals
import WasmScript.Proofs.Text.Paths
import WasmScript.Proofs.Text.Searches
import WasmScript.Proofs.Text.Sheets
import WasmScript.Run.Cell
import WasmScript.Run.Machine
import WasmScript.Run.Network
import WasmScript.Run.Operation
import WasmScript.Run.Stack
import WasmScript.Run.Store
import WasmScript.Run.Structured
import WasmScript.Scenario.Check
import WasmScript.Scenario.Notation
import WasmScript.Scenario.Quote
import WasmScript.Scenario.Step
import WasmScript.Scenario.World
import WasmScript.Script.Declarations
import WasmScript.Script.Evaluation
import WasmScript.Script.Execution
import WasmScript.Script.Expression
import WasmScript.Script.Helper
import WasmScript.Script.HelperCall
import WasmScript.Script.Program
import WasmScript.Script.Statement
import WasmScript.Text.Hex
import WasmScript.Text.Layout
import WasmScript.Text.Path
import WasmScript.Text.Quoted
import WasmScript.Text.Units
import WasmScript.Text.Units.Lemmas
import WasmScript.Transpile
import WasmScript.Trap
