import SistemiDiCalcolo.Machine
import SistemiDiCalcolo.Tally
import SistemiDiCalcolo.BoundedFifo
import SistemiDiCalcolo.SemRing
import SistemiDiCalcolo.SemRingInv
import SistemiDiCalcolo.Sections
import SistemiDiCalcolo.Memory
import SistemiDiCalcolo.Transaction
import SistemiDiCalcolo.ProducerConsumer
import SistemiDiCalcolo.ProducerConsumerRing
import SistemiDiCalcolo.ProducerConsumerDeposit
import SistemiDiCalcolo.ProducerConsumerAccounts
import SistemiDiCalcolo.ProducerConsumerEnd
import SistemiDiCalcolo.ProducerConsumerTotals
import SistemiDiCalcolo.ProducerConsumerTraces
import SistemiDiCalcolo.ProducerConsumer11
import SistemiDiCalcolo.SharedMemory
import SistemiDiCalcolo.SharedMemoryRing
import SistemiDiCalcolo.SharedMemorySums
import SistemiDiCalcolo.LockFree
import SistemiDiCalcolo.LockFreeRing
import SistemiDiCalcolo.LockFreeProgress
import SistemiDiCalcolo.LockFreeLoss
import SistemiDiCalcolo.Dijkstra
import SistemiDiCalcolo.DijkstraFairness
import SistemiDiCalcolo.Dekker
import SistemiDiCalcolo.AccessLog
import SistemiDiCalcolo.Riepilogo
import SistemiDiCalcolo.RiepilogoLock
import SistemiDiCalcolo.RiepilogoStart
import SistemiDiCalcolo.RiepilogoLog
import SistemiDiCalcolo.Polling
import SistemiDiCalcolo.PollingRuns
import SistemiDiCalcolo.PollingOrder
import SistemiDiCalcolo.PollingLog
import SistemiDiCalcolo.PollingAccount
import SistemiDiCalcolo.PollingEnd
import SistemiDiCalcolo.Descriptor
import SistemiDiCalcolo.Pipe
import SistemiDiCalcolo.PipeSections
import SistemiDiCalcolo.PipeFraming
import SistemiDiCalcolo.PipeReader
import SistemiDiCalcolo.Copy
import SistemiDiCalcolo.CopyContent
import SistemiDiCalcolo.CopyMain
import SistemiDiCalcolo.ForkWait
import SistemiDiCalcolo.ValueFifo
import SistemiDiCalcolo.ValueFifoFlow
import SistemiDiCalcolo.ValueFifoEnd
import SistemiDiCalcolo.Lines
import SistemiDiCalcolo.EchoFifo
import SistemiDiCalcolo.EchoFifoStages
import SistemiDiCalcolo.EchoFifoRounds
import SistemiDiCalcolo.TimeServer
import SistemiDiCalcolo.TimeServerChunks
import SistemiDiCalcolo.Spawn
import SistemiDiCalcolo.SharedCounter
import SistemiDiCalcolo.LocalCounter
import SistemiDiCalcolo.PipeTransfers
import SistemiDiCalcolo.IntFile
import SistemiDiCalcolo.BufferFile
import SistemiDiCalcolo.RequestWorker
import SistemiDiCalcolo.BurstScheduler
import SistemiDiCalcolo.BurstSchedulerRuns
import SistemiDiCalcolo.NamedScheduler
import SistemiDiCalcolo.NamedSchedulerEnd
import SistemiDiCalcolo.EchoServer
import SistemiDiCalcolo.EchoServerFraming
import SistemiDiCalcolo.EchoClient
import SistemiDiCalcolo.EchoFifoBounds
import SistemiDiCalcolo.TimeSends
import SistemiDiCalcolo.TimeClient
import SistemiDiCalcolo.TimeServerLengths
import SistemiDiCalcolo.EchoServerBounds
import SistemiDiCalcolo.CheckedSend
import SistemiDiCalcolo.LineClient
import SistemiDiCalcolo.LineClientReplies
import SistemiDiCalcolo.EchoSends
import SistemiDiCalcolo.EchoSession
import SistemiDiCalcolo.EchoClientReplies
import SistemiDiCalcolo.BurstSchedulerCounter
import SistemiDiCalcolo.BurstWork
import SistemiDiCalcolo.RingQueue
import SistemiDiCalcolo.CheckedCalls
import SistemiDiCalcolo.BufferFileQueue
import SistemiDiCalcolo.BufferFileFailures
import SistemiDiCalcolo.ParseOutput
import SistemiDiCalcolo.Performance
import SistemiDiCalcolo.EchoFifoWrites
import SistemiDiCalcolo.ProducerConsumerReports
import SistemiDiCalcolo.Fairness
import SistemiDiCalcolo.DekkerFairness
import SistemiDiCalcolo.RiepilogoEnd
import SistemiDiCalcolo.RiepilogoFailure
import SistemiDiCalcolo.BurstSchedulerEnd
import SistemiDiCalcolo.LatestWrite
import SistemiDiCalcolo.Unguarded
import SistemiDiCalcolo.UnguardedRing
import SistemiDiCalcolo.UnguardedRefinement
import SistemiDiCalcolo.TimeService
import SistemiDiCalcolo.TimeServiceEnd
import SistemiDiCalcolo.TimeServiceAnswers
import SistemiDiCalcolo.LockFreeEnd
