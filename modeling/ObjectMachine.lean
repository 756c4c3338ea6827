import ObjectMachine.Bytes
import ObjectMachine.Fault
import ObjectMachine.Text.Digits
import ObjectMachine.Text.Blank
import ObjectMachine.Text.Quoted
import ObjectMachine.Text.Utf8
import ObjectMachine.Text.Words
import ObjectMachine.Address
import ObjectMachine.Opcode
import ObjectMachine.Condition
import ObjectMachine.Instruction.Builder
import ObjectMachine.Assembly.Resolver
import ObjectMachine.Object.Class
import ObjectMachine.Memory.SemiSpaces
import ObjectMachine.Memory.CodeArena
import ObjectMachine.Memory.Constants
import ObjectMachine.Memory.FrameStack
import ObjectMachine.Memory.Collector
import ObjectMachine.Memory.Basic
import ObjectMachine.Host.FileTable
import ObjectMachine.Host.Sink
import ObjectMachine.Machine.Construction
import ObjectMachine.Machine.Interpreter
import ObjectMachine.Machine.Library
import ObjectMachine.Main
import ObjectMachine.Proofs.Runs
import ObjectMachine.Proofs.CodeRoundTrip
import ObjectMachine.Proofs.ByteRanges
import ObjectMachine.Proofs.StackRuns
import ObjectMachine.Proofs.StackSafety
import ObjectMachine.Proofs.StackScan
import ObjectMachine.Proofs.ObjectGraph
import ObjectMachine.Proofs.Evacuation
import ObjectMachine.Proofs.CollectorScan
import ObjectMachine.Proofs.Collection
import ObjectMachine.Proofs.GraphPreservation
import ObjectMachine.Proofs.CollectorSafety
import ObjectMachine.Proofs.IdealMemory
import ObjectMachine.Proofs.StackFrames
import ObjectMachine.Proofs.MemoryCollection
import ObjectMachine.Proofs.ObjectUpdates
import ObjectMachine.Proofs.MemoryOperations
import ObjectMachine.Proofs.HeaderCodec
import ObjectMachine.Proofs.StackOperations
import ObjectMachine.Proofs.IdealValidity
import ObjectMachine.Proofs.Lockstep
import ObjectMachine.Proofs.LockstepQueries
import ObjectMachine.Proofs.LockstepStack
import ObjectMachine.Proofs.LockstepObjects
import ObjectMachine.Proofs.LockstepServices
import ObjectMachine.Proofs.LockstepSteps
import ObjectMachine.Proofs.Discipline
import ObjectMachine.Proofs.ClassRecords
import ObjectMachine.Proofs.Interning
import ObjectMachine.Proofs.LockstepClasses
import ObjectMachine.Proofs.LockstepAssembly
import ObjectMachine.Proofs.LockstepLibrary
import ObjectMachine.Proofs.StoredCode
import ObjectMachine.Proofs.FetchedCode
import ObjectMachine.Proofs.References
import ObjectMachine.Proofs.Transparency
import ObjectMachine.Proofs.CallNesting
import ObjectMachine.Proofs.SourceGrammar
import ObjectMachine.Proofs.AssembledCode
import ObjectMachine.Proofs.BoundLabels
import ObjectMachine.Proofs.CollectedMemory
import ObjectMachine.Proofs.StableDispatch
import ObjectMachine.Proofs.FreshAllocation
import ObjectMachine.Proofs.ObjectAccess
import ObjectMachine.Proofs.Relocation
import ObjectMachine.Proofs.CalmInstructions
import ObjectMachine.Proofs.FrameSteps
import ObjectMachine.Proofs.NeutralRuns
import ObjectMachine.Proofs.NumericOperands
import ObjectMachine.Proofs.SourceFlaws
import ObjectMachine.Proofs.ReportedErrors
import ObjectMachine.Proofs.ClassTables
import ObjectMachine.Proofs.ClassHierarchy
import ObjectMachine.Proofs.Listings
import ObjectMachine.Proofs.ExactAddresses
import ObjectMachine.Proofs.CarriedMemory
import ObjectMachine.Proofs.NewObjects
import ObjectMachine.Proofs.RootedWork
import ObjectMachine.Proofs.SplitStrings
import ObjectMachine.Proofs.LibraryContents
import ObjectMachine.Proofs.MethodCalls
import ObjectMachine.Proofs.MethodResults
import ObjectMachine.Proofs.LibraryMethods
import ObjectMachine.Proofs.UniqueParts
import ObjectMachine.Proofs.LiteralText
import ObjectMachine.Proofs.FileServices
import ObjectMachine.Proofs.FileHandles
import ObjectMachine.Proofs.FileContents
import ObjectMachine.Proofs.WrittenLines
