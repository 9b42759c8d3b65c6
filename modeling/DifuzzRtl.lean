import DifuzzRtl.Firrtl.Ir
import DifuzzRtl.Firrtl.Semantics
import DifuzzRtl.Coverage.GraphLedger
import DifuzzRtl.Coverage.InstrCov
import DifuzzRtl.Coverage.RegisterCov
import DifuzzRtl.Coverage.StateWord
import DifuzzRtl.Coverage.VecRegs
import DifuzzRtl.Coverage.Structure
import DifuzzRtl.Coverage.Reachability
import DifuzzRtl.Coverage.Influence
import DifuzzRtl.Coverage.DirectInputs
import DifuzzRtl.Coverage.HierarchyFile
import DifuzzRtl.Coverage.Summary
import DifuzzRtl.Coverage.Selection
import DifuzzRtl.Firrtl.Hierarchy
import DifuzzRtl.Firrtl.Elaboration
import DifuzzRtl.Coverage.CovCount
import DifuzzRtl.Coverage.Transparent
import DifuzzRtl.Coverage.MetaReset
import DifuzzRtl.Coverage.MetaAssert
import DifuzzRtl.Coverage.Ports
import DifuzzRtl.Coverage.Names
import DifuzzRtl.TileLink.Adapter
import DifuzzRtl.TileLink.ByteMemory
import DifuzzRtl.Lib.Lanes
import DifuzzRtl.TileLink.Atomics
import DifuzzRtl.TileLink.Grants
import DifuzzRtl.TileLink.Ownership
import DifuzzRtl.Lib.Runs
import DifuzzRtl.TileLink.Actions
import DifuzzRtl.TileLink.Probes
import DifuzzRtl.TileLink.Turns
import DifuzzRtl.TileLink.Races
import DifuzzRtl.TileLink.Stale
import DifuzzRtl.TileLink.DeferredPut
import DifuzzRtl.Lib.Effects
import DifuzzRtl.Lib.Text
import DifuzzRtl.Lib.Tokens
import DifuzzRtl.Mutator.Random
import DifuzzRtl.Mutator.Word
import DifuzzRtl.Mutator.Replay
import DifuzzRtl.Mutator.Definitions
import DifuzzRtl.Mutator.Generator
import DifuzzRtl.Mutator.Mutate
import DifuzzRtl.Mutator.Seeds
import DifuzzRtl.Mutator.Shapes
import DifuzzRtl.Mutator.Populate
import DifuzzRtl.Mutator.Relabel
import DifuzzRtl.Mutator.Programs
import DifuzzRtl.Mutator.Assembly
import DifuzzRtl.Mutator.Links
import DifuzzRtl.Mutator.Forward
import DifuzzRtl.Signature.Files
import DifuzzRtl.Signature.Bounds
import DifuzzRtl.Signature.Checker
import DifuzzRtl.Signature.RoundTrip
import DifuzzRtl.Signature.Setup
import DifuzzRtl.Fuzzer.Manager
import DifuzzRtl.Fuzzer.Run
import DifuzzRtl.Fuzzer.Guidance
import DifuzzRtl.Fuzzer.StopFlag
import DifuzzRtl.Fuzzer.Numbering
import DifuzzRtl.Fuzzer.Reports
import DifuzzRtl.Fuzzer.CovMaps
import DifuzzRtl.Fuzzer.Exchange
import DifuzzRtl.Fuzzer.Slots
import DifuzzRtl.Coverage.Vectors
import DifuzzRtl.TileLink.Deferred
import DifuzzRtl.Mutator.Interrupts
import DifuzzRtl.Lib.Blocks
import DifuzzRtl.Mutator.Masking
import DifuzzRtl.Mutator.Deletion
import DifuzzRtl.Mutator.Substitution
import DifuzzRtl.Mutator.Placeholders
import DifuzzRtl.Mutator.Immediates
import DifuzzRtl.Mutator.Totality
import DifuzzRtl.Mutator.Sections
import DifuzzRtl.Mutator.DataAccess
import DifuzzRtl.Lib.Scheduling
import DifuzzRtl.Micro.MemCtrl
import DifuzzRtl.Paging.Tables
import DifuzzRtl.Paging.Faults
import DifuzzRtl.Coverage.Reduction
import DifuzzRtl.Fuzzer.Abort
import DifuzzRtl.Lib.Windows
import DifuzzRtl.Fuzzer.Minimizer
import DifuzzRtl.TileLink.Flush
import DifuzzRtl.Signature.Pins
import DifuzzRtl.Signature.Polling
