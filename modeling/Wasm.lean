import Wasm.CommandLine.File
import Wasm.CommandLine.Options
import Wasm.CommandLine.Session
import Wasm.CommandLine.Summary
import Wasm.Config
import Wasm.Exec.Context
import Wasm.Exec.Machine
import Wasm.Exec.Operation
import Wasm.Exec.Plain
import Wasm.Exec.Step
import Wasm.Exec.Trace
import Wasm.Format.Error
import Wasm.Format.Expr
import Wasm.Format.Leb128
import Wasm.Format.Module
import Wasm.Format.Opcode
import Wasm.Format.Section
import Wasm.Format.Token
import Wasm.Format.Window
import Wasm.Host
import Wasm.Host.Script
import Wasm.Instance
import Wasm.Instance.Allocation
import Wasm.Instance.Group
import Wasm.Link
import Wasm.LittleEndian
import Wasm.Main
import Wasm.Memory
import Wasm.Number.Conversion
import Wasm.Number.Decimal
import Wasm.Number.Float
import Wasm.Number.Ieee
import Wasm.Number.Integer
import Wasm.Number.Literal
import Wasm.Proofs.Machine.Actions
import Wasm.Proofs.Session
import Wasm.Proofs.Strategy.Simulation
import Wasm.Store
import Wasm.Store.Text
import Wasm.Syntax.Code
import Wasm.Syntax.Instr
import Wasm.Syntax.Module
import Wasm.Syntax.Types
import Wasm.Text.Utf16
import Wasm.Text.Utf8
import Wasm.Trap
import Wasm.Validity
import Wasm.Value
import Wasm.Proofs.Strategy.Agreement
import Wasm.Proofs.Format.Readers
import Wasm.Proofs.Format.Decoded
import Wasm.Proofs.Safety.Context
import Wasm.Proofs.Safety.Demand
import Wasm.Proofs.Safety.Machine
import Wasm.Proofs.Safety.Execution
import Wasm.Proofs.Safety.Linking
import Wasm.Proofs.Safety.Reachable
import Wasm.Proofs.Structured.Eval
import Wasm.Proofs.Structured.Flat
import Wasm.Proofs.Structured.Refinement
import Wasm.Proofs.Encoding.Leb128
import Wasm.Proofs.Encoding.Code
import Wasm.Proofs.Encoding.Section
import Wasm.Proofs.Encoding.Module
import Wasm.Proofs.Syntax.References
import Wasm.Proofs.Format.Indexed
import Wasm.Proofs.Format.Numbers
import Wasm.Proofs.Machine.Trail
import Wasm.Proofs.Frames
import Wasm.Proofs.Machine.Outline
import Wasm.Proofs.Machine.Confined
import Wasm.Proofs.Limits.Termination
import Wasm.Proofs.Limits.Metering
import Wasm.Proofs.Limits.Cutoff
import Wasm.Proofs.Cache.Transparency
import Wasm.Proofs.History
import Wasm.Proofs.Origin
import Wasm.Proofs.Machine.Fixed
import Wasm.Proofs.Exports
import Wasm.Proofs.Cache.Filling
import Wasm.Proofs.Cache.Crew
import Wasm.Proofs.Cache.Sharing
import Wasm.Proofs.Linking.Imports
import Wasm.Proofs.Linking.IndexSpaces
import Wasm.Proofs.Machine.Changes
import Wasm.Proofs.Machine.Life
import Wasm.Proofs.Slots
import Wasm.Proofs.Memory.Limits
import Wasm.Proofs.Format.Exact
import Wasm.Proofs.Format.SectionSize
import Wasm.Proofs.Format.CustomSections
import Wasm.Proofs.Memory.Imported
import Wasm.Proofs.Machine.Advance
import Wasm.Proofs.Structured.Nesting
import Wasm.Proofs.Labels
import Wasm.Proofs.Calls
import Wasm.Proofs.Format.Spelling
import Wasm.Proofs.Format.Bodies
import Wasm.Proofs.Memory.Access
import Wasm.Proofs.Linking.Segments
import Wasm.Proofs.Integers
import Wasm.Proofs.Format.Location
import Wasm.Proofs.Format.Size
import Wasm.Proofs.Memory.Strings
import Wasm.Proofs.Format.Reads
import Wasm.Proofs.Format.Cursors
