import SecurityMonitor.EnclaveMemory
import SecurityMonitor.Allocation
import SecurityMonitor.Replies
import SecurityMonitor.Accounting
import SecurityMonitor.Loading
import SecurityMonitor.PageTables
import SecurityMonitor.Interleaving
import SecurityMonitor.LockHelpers
import SecurityMonitor.LlcSync
import SecurityMonitor.LlcPartitions
import SecurityMonitor.LlcFlush
import SecurityMonitor.Deletion
import SecurityMonitor.EvRange
import SecurityMonitor.HandlerRange
import SecurityMonitor.UserCopy
import SecurityMonitor.IllegalInsn
import SecurityMonitor.Idpt
import SecurityMonitor.RegionIndex
import SecurityMonitor.Measurement
import SecurityMonitor.MeasuredStream
import SecurityMonitor.PageContents
import SecurityMonitor.MappedMemory
import SecurityMonitor.LoadedRanges
import SecurityMonitor.SplitLoad
import SecurityMonitor.Noninterference
import SecurityMonitor.IpiProgress
import SecurityMonitor.Attestation
