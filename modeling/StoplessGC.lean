import StoplessGC.Foundation.OpenAddressing
import StoplessGC.Foundation.Interleaving
import StoplessGC.Foundation.Alignment
import StoplessGC.Foundation.Forwarding
import StoplessGC.Foundation.BitFields
import StoplessGC.Foundation.StoredList
import StoplessGC.Foundation.InternTable
import StoplessGC.Foundation.SerialLayout
import StoplessGC.Foundation.FirstInsert
import StoplessGC.Foundation.PlainText
import StoplessGC.ForwardTableMap
import StoplessGC.ForwardTableChase
import StoplessGC.ForwardTableLookup
import StoplessGC.ForwardTableCas
import StoplessGC.ForwardTableResize
import StoplessGC.ForwardTableOverwrite
import StoplessGC.ForwardTableDeletion
import StoplessGC.AllocatorInterleaving
import StoplessGC.Collector
import StoplessGC.Handler
import StoplessGC.HealRetry
import StoplessGC.Mutator
import StoplessGC.HeapInvariant
import StoplessGC.RootScan
import StoplessGC.Execution
import StoplessGC.Rebuild
import StoplessGC.AllocationBounds
import StoplessGC.ArrayCopy
import StoplessGC.Morello
import StoplessGC.Emitters
import StoplessGC.MachineCode
import StoplessGC.TlabAllocate
import StoplessGC.Dispatch
import StoplessGC.CallStub
import StoplessGC.FixedFrame
import StoplessGC.FrameActivation
import StoplessGC.ExpressionStack
import StoplessGC.StackShuffle
import StoplessGC.MonitorGrowth
import StoplessGC.Locals
import StoplessGC.LocalAccess
import StoplessGC.Trampoline
import StoplessGC.DataTable
import StoplessGC.NativeArguments
import StoplessGC.MetaspaceRegistry
import StoplessGC.MetaspaceCommit
import StoplessGC.MetaspaceRawSize
import StoplessGC.RootLoss
import StoplessGC.SignalHandler
import StoplessGC.Healing
import StoplessGC.InterpreterFrame
import StoplessGC.Monitors
import StoplessGC.CapRuntimeTable
import StoplessGC.CapRuntimeMap
import StoplessGC.SideTable
import StoplessGC.OopStorageBlock
import StoplessGC.PatchCounts
import StoplessGC.PatchIdempotence
import StoplessGC.PatchFormat
import StoplessGC.PatchRepair
import StoplessGC.ForwardingGraph
import StoplessGC.ChaseLimit
import StoplessGC.RootFixup
import StoplessGC.TagInvariant
import StoplessGC.Revocation
import StoplessGC.Denotation
import StoplessGC.Identity
import StoplessGC.PlainMachine
import StoplessGC.Representation
import StoplessGC.Transparency
import StoplessGC.EpochSteps
import StoplessGC.EpochProtocol
import StoplessGC.ForwardTableAtomic
import StoplessGC.AllocatorAtomic
import StoplessGC.AssistedEvacuation
import StoplessGC.ActivationRuns
import StoplessGC.Progress
import StoplessGC.SideTableAtomic
import StoplessGC.ObjectClone
import StoplessGC.HeaderExchange
