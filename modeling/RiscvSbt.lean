import RiscvSbt.Translate.BuilderProofs
import RiscvSbt.Translate.Instruction
import RiscvSbt.Translate.Simulation
import RiscvSbt.Translate.Division
import RiscvSbt.Block.Machine
import RiscvSbt.Block.Translate
import RiscvSbt.Block.Split
import RiscvSbt.Block.Code
import RiscvSbt.Block.Heap
import RiscvSbt.Block.Invariant
import RiscvSbt.Block.Cut
import RiscvSbt.Block.Steps
import RiscvSbt.Block.Helpers
import RiscvSbt.Block.Turn
import RiscvSbt.Block.Ready
import RiscvSbt.Block.Loop
import RiscvSbt.Block.Partition
import RiscvSbt.Block.Flow
import RiscvSbt.Block.Trace
import RiscvSbt.Block.WellFormed
import RiscvSbt.Context.Discovery
import RiscvSbt.Registers.Machine
import RiscvSbt.Registers.Shape
import RiscvSbt.Registers.Locals
import RiscvSbt.Registers.Convention
import RiscvSbt.Registers.Abi
import RiscvSbt.Context.Maps
import RiscvSbt.Relocation.Machine
import RiscvSbt.Relocation.Resolve
import RiscvSbt.Relocation.Calls
import RiscvSbt.Registers.External
import RiscvSbt.Counters.Machine
import RiscvSbt.Counters.Order
import RiscvSbt.Counters.Brand
import RiscvSbt.Counters.Frequency
import RiscvSbt.Counters.X86
import RiscvSbt.Library.Division
import RiscvSbt.Counters.Time
import RiscvSbt.Block.Outer
import RiscvSbt.Block.Owner
import RiscvSbt.Block.Upkeep
import RiscvSbt.Context.Finish
import RiscvSbt.Context.Fresh
import RiscvSbt.Block.Links
import RiscvSbt.Context.Linked
import RiscvSbt.Context.Kept
import RiscvSbt.Context.Erased
import RiscvSbt.Context.Function
import RiscvSbt.Context.Boundary
import RiscvSbt.Context.Tables
import RiscvSbt.Context.Jumps
import RiscvSbt.Context.Bodies
import RiscvSbt.Context.Lookups
import RiscvSbt.Context.Callees
import RiscvSbt.Context.Holds
import RiscvSbt.Context.Walk
import RiscvSbt.Context.Moves
import RiscvSbt.Context.Words
import RiscvSbt.Context.Symbols
import RiscvSbt.Library.Index
import RiscvSbt.Context.Identity
import RiscvSbt.Context.Distinguished
import RiscvSbt.Block.Slots
import RiscvSbt.Printf.Machine
import RiscvSbt.Printf.Format
import RiscvSbt.Printf.Break
import RiscvSbt.Printf.Scan
import RiscvSbt.Context.Targets
import RiscvSbt.Relocation.Branches
import RiscvSbt.Relocation.Addresses
import RiscvSbt.Relocation.Pairs
import RiscvSbt.Library.Overlay
import RiscvSbt.Library.Place
import RiscvSbt.Relocation.Data
import RiscvSbt.Relocation.Pointers
import RiscvSbt.Relocation.Cursor
import RiscvSbt.Caller.Convention
import RiscvSbt.Caller.Machine
import RiscvSbt.Stack.Machine
import RiscvSbt.Stack.Spill
import RiscvSbt.Library.Search
import RiscvSbt.Container.Map
import RiscvSbt.Container.History
import RiscvSbt.Library.Floating
import RiscvSbt.Float.Convert
import RiscvSbt.Float.Range
import RiscvSbt.Isa.Rv32fd
import RiscvSbt.Float.Moves
import RiscvSbt.Float.Boxing
import RiscvSbt.Library.Text
import RiscvSbt.Source.Machine
import RiscvSbt.Source.RoundTrip
import RiscvSbt.Object.Machine
import RiscvSbt.Object.Sections
import RiscvSbt.Object.Common
import RiscvSbt.Object.Attach
import RiscvSbt.Splitting.Machine
import RiscvSbt.Splitting.Pieces
import RiscvSbt.Splitting.Split
import RiscvSbt.Splitting.Divided
import RiscvSbt.Splitting.Simulation
import RiscvSbt.Library.Simulation
import RiscvSbt.Library.Segments
import RiscvSbt.Isa.Control
import RiscvSbt.Translate.Branch
import RiscvSbt.Translate.Control
import RiscvSbt.Block.Together
import RiscvSbt.Block.Placed
import RiscvSbt.Context.Compiled
import RiscvSbt.Library.Switch
import RiscvSbt.Dispatch.Machine
import RiscvSbt.Dispatch.Growth
import RiscvSbt.Dispatch.Imports
import RiscvSbt.Dispatch.Resolve
import RiscvSbt.Dispatch.Icaller
import RiscvSbt.Syscall.Machine
import RiscvSbt.Syscall.Wrapper
import RiscvSbt.Syscall.Handler
import RiscvSbt.Syscall.Trace
import RiscvSbt.Whole.Machine
import RiscvSbt.Whole.Emitted
import RiscvSbt.Whole.Walk
import RiscvSbt.Whole.Simulation
import RiscvSbt.Whole.Built
