import TimeStone.Lib.Run
import TimeStone.Lib.Ring
import TimeStone.Config
import TimeStone.Clock
import TimeStone.Nvlog
import TimeStone.NvlogCrash
import TimeStone.Ckptlog
import TimeStone.CkptlogMaster
import TimeStone.ThreadLogs
import TimeStone.TvlogRing
import TimeStone.TvlogSpace
import TimeStone.Commit
import TimeStone.CommitAtomic
import TimeStone.VersionChain
import TimeStone.VersionChainInv
import TimeStone.VersionChainCommit
import TimeStone.QpDetect
import TimeStone.ThreadLife
import TimeStone.System.Qp
import TimeStone.System.Durable
import TimeStone.System.Chain
import TimeStone.System.ChainTx
import TimeStone.System.Inv
import TimeStone.System.Masters
import TimeStone.System.Contents
import TimeStone.System.Complete
import TimeStone.Recovery
import TimeStone.Replay
import TimeStone.SerialLevel
import TimeStone.System.LinearLevel
import TimeStone.NvlogFlush
import TimeStone.TvlogMem
import TimeStone.CkptRecovery
import TimeStone.ReplayExec
import TimeStone.VhdrRun
import TimeStone.RecoveryLog
import TimeStone.TvlogParse
import TimeStone.Borderline
import TimeStone.TvlogReclaim
import TimeStone.System.Freeing
import TimeStone.System.Frontier
import TimeStone.System.TombstoneClk
import TimeStone.System.Restore
import TimeStone.Lib.LinkedList
import TimeStone.NvlogStore
import TimeStone.ThreadApi
import TimeStone.OpLogging
import TimeStone.TvlogAbort
import TimeStone.NvmFlush
import TimeStone.Lib.ArrayStack
import TimeStone.PtrStack
import TimeStone.TvlogBytes
import TimeStone.ReplaySet
import TimeStone.WriteRuleRun
import TimeStone.SnapshotReadRun
