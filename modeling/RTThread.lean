import RTThread.CompletionRuns
import RTThread.TeardownRuns
import RTThread.SerialDma
import RTThread.SerialOpen
import RTThread.SignalMask
import RTThread.SignalWaits
import RTThread.TimedCalls
import RTThread.EventWaiters
import RTThread.MailboxWakeups
import RTThread.AllocLengths
import RTThread.MemPoolInit
import RTThread.MessageQueueRuns
import RTThread.MutexSignals
import RTThread.FinshGcRuns
import RTThread.FinshSymbolTables
import RTThread.FinshTextLiterals
import RTThread.FinshLineRuns
import RTThread.PipeRuns
import RTThread.PipeTransfers
import RTThread.PmDevices
import RTThread.PmModes
import RTThread.SchedulerThreads
import RTThread.SemaphoreTokens
import RTThread.TimerDetach
import RTThread.MillisecondDelay
import RTThread.AtLineSplits
import RTThread.AtServerLines
import RTThread.AtReaderRuns
import RTThread.AtCommandRuns
import RTThread.AtSocketEvents
import RTThread.AtSocketStream
import RTThread.AtSocketTable
import RTThread.DfsMountTable
import RTThread.DfsOpenExact
import RTThread.DfsResolution
import RTThread.RomfsDirs
import RTThread.WaitOrder
import RTThread.WaitQueueWakeups
import RTThread.SelectSets
import RTThread.AioRuns
import RTThread.PosixRegistry
import RTThread.SerialTx
import RTThread.ShellEdits
import RTThread.WlanStorage
import RTThread.WorkQueueRuns
import RTThread.CondRuns
import RTThread.ClockTimes
import RTThread.MktimeCarries
import RTThread.PthreadRuns
import RTThread.RwLockRuns
import RTThread.FcntlRuns
import RTThread.MshCompletions
import RTThread.LogSessions
import RTThread.KserviceMemory
import RTThread.UlogLines
import RTThread.ScanfReads
import RTThread.FinshMeaningRuns
import RTThread.HeapIsolation
import RTThread.ModbusRtu
