import Xyco.Machine.Run
import Xyco.Radix.Level
import Xyco.Time.Layout
import Xyco.Time.Wheel
import Xyco.Time.Proofs.LevelProofs
import Xyco.Time.Proofs.PlaceProofs
import Xyco.Time.Proofs.WalkProofs
import Xyco.Time.FlatTimers
import Xyco.Time.Proofs.InvariantProofs
import Xyco.Time.Proofs.HistoryProofs
import Xyco.Time.Proofs.FlatTimersProofs
import Xyco.Fifo.Bounded
import Xyco.Machine.Table
import Xyco.Sync.Mpsc
import Xyco.Sync.Proofs.MpscStepProofs
import Xyco.Sync.MpscSpec
import Xyco.Sync.Proofs.MpscQueueProofs
import Xyco.Sync.Proofs.MpscRoomProofs
import Xyco.Sync.Proofs.MpscPollProofs
import Xyco.Sync.Proofs.MpscWakeProofs
import Xyco.Sync.MpscHandles
import Xyco.Sync.Proofs.MpscHandlesProofs
import Xyco.Sync.Oneshot
import Xyco.Sync.OneshotSpec
import Xyco.Sync.Proofs.OneshotStepProofs
import Xyco.Sync.Proofs.OneshotWakeProofs
import Xyco.Sync.Proofs.OneshotOnceProofs
import Xyco.Machine.Pool
import Xyco.Machine.Args
import Xyco.Task.Fork
import Xyco.Task.Select
import Xyco.Task.Join
import Xyco.Task.Proofs.ForkProofs
import Xyco.Task.Proofs.SelectProofs
import Xyco.Task.Proofs.JoinAccountProofs
import Xyco.Task.Proofs.JoinGuardProofs
import Xyco.Task.Proofs.JoinProgressProofs
import Xyco.Task.Proofs.JoinLifetimeProofs
import Xyco.Machine.Path
import Xyco.Runtime.Future
import Xyco.Runtime.Proofs.FutureStepProofs
import Xyco.Runtime.Proofs.FutureOwnedProofs
import Xyco.Runtime.Proofs.FutureLinkProofs
import Xyco.Runtime.Proofs.CancelProofs
import Xyco.Io.Read
import Xyco.Io.BufferReader
import Xyco.Io.Proofs.BufferReaderProofs
import Xyco.Io.BufferRead
import Xyco.Fs.File
import Xyco.Io.Proofs.BufferReadProofs
import Xyco.Fs.Proofs.FileProofs
import Xyco.Io.EpollRegistry
import Xyco.Io.Proofs.EpollRegistryProofs
import Xyco.Machine.Lock
import Xyco.Task.Blocking
import Xyco.Task.Proofs.BlockingStepProofs
import Xyco.Task.Proofs.BlockingLockProofs
import Xyco.Task.Proofs.BlockingAccountProofs
import Xyco.Task.Proofs.BlockingShutdownProofs
import Xyco.Task.Proofs.BlockingOnceProofs
import Xyco.Runtime.Proofs.RunQueueProofs
import Xyco.Runtime.Proofs.RunQueuePoolProofs
import Xyco.Runtime.Launch
import Xyco.Runtime.Proofs.LaunchProofs
import Xyco.Runtime.GlobalRegistry
import Xyco.Runtime.Proofs.GlobalRegistryProofs
import Xyco.Io.UringRegistry
import Xyco.Io.Proofs.UringRegistryProofs
import Xyco.Net.Proofs.UringStreamProofs
import Xyco.Net.EpollSocket
import Xyco.Net.Proofs.EpollSocketProofs
import Xyco.Net.EpollDuplex
import Xyco.Net.Proofs.EpollDuplexProofs
import Xyco.Net.Proofs.EpollRefinementProofs
import Xyco.Io.Proofs.ReadUntilProofs
import Xyco.Io.Proofs.ReadErrorProofs
import Xyco.Io.Write
import Xyco.Io.Proofs.WriteProofs
import Xyco.Io.Proofs.UringSubmitProofs
import Xyco.Net.Proofs.EpollFailureProofs
import Xyco.Net.Proofs.SocketAddrProofs
import Xyco.Task.Proofs.SelectCancelProofs
import Xyco.Time.Proofs.TimeoutProofs
import Xyco.Time.Proofs.PositionProofs
import Xyco.Machine.Heap
import Xyco.Runtime.Lifetime
import Xyco.Runtime.Pointers
import Xyco.Runtime.Proofs.PointersProofs
import Xyco.Runtime.Proofs.LifetimeStepProofs
import Xyco.Runtime.Proofs.LifetimeProofs
import Xyco.Runtime.Proofs.LaunchProgressProofs
import Xyco.Runtime.Proofs.RunQueueStepProofs
import Xyco.Runtime.Proofs.ShutdownProofs
import Xyco.Runtime.BlockOn
import Xyco.Runtime.Proofs.BlockOnProofs
import Xyco.Time.Sleep
import Xyco.Time.Proofs.SleepProofs
