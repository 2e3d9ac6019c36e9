/-
What recovery knows about the persistent logs, and the records of a replay (`recovery.c`).

The logs are linked from the NVM root, each with its type and its status.  A replay consists
of an EXEC and a COMMIT record for each operation: `ReplayScan` builds the array of them from
the operational logs, `Replay` sorts it, and `ReplayExec` goes through it.
-/
import Mathlib.Data.Nat.Notation
import Mathlib.Tactic.Common

namespace TimeStone.Recovery

/-- `type` of a `ts_nvlog_store_t`. -/
inductive NvlogType
  | nvlog
  | oplog
  | ckptlog
  deriving DecidableEq

/-- `status` of a `ts_nvlog_store_t`. -/
inductive NvlogStatus
  | normal
  | recovery
  deriving DecidableEq

/-- `OPLOG_REPLAY_TYPE_EXEC` and `OPLOG_REPLAY_TYPE_COMMIT`. -/
inductive ReplayType
  | exec
  | commit
  deriving DecidableEq

/-- `ts_replay_entry_t`; `context` is the index in the context array. -/
structure ReplayEntry where
  timeStamp : UInt64
  type : ReplayType
  context : ℕ
  deriving DecidableEq

end TimeStone.Recovery
