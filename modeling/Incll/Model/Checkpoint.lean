import Incll.Model.Logreplay
import Incll.Model.Loginfo

/-! # Checkpoints (`mtd.cc`)

Epochs are plain numbers, and 0 stands for none. -/

namespace Incll.Model

def Loginfo.quiescent (l : Loginfo) : Bool :=
  l.quiescentEpoch != 0 && l.quiescentEpoch == l.flushedEpoch

namespace Checkpointer

/-- What `max_flushed_epoch` takes for the flushed epoch of a log; `ge` is `global_log_epoch`. -/
def flushed (ge : Nat) (l : Loginfo) : Nat := if l.quiescent then ge else l.flushedEpoch

/-- The loop of `max_flushed_epoch` from `mfe` on. -/
def leastFlushed (ge mfe : Nat) (logs : List Loginfo) : Nat :=
  logs.foldl (fun mfe l => if mfe = 0 ∨ flushed ge l < mfe then flushed ge l else mfe) mfe

def maxFlushedEpoch (ge : Nat) (logs : List Loginfo) : Nat := leastFlushed ge 0 logs

/-- `conc_checkpointer` commits the checkpoint that it has prepared, with `max_epoch`. -/
def commits (ge maxEpoch : Nat) (logs : List Loginfo) : Bool :=
  maxFlushedEpoch ge logs == 0 || decide (maxEpoch < maxFlushedEpoch ge logs)

end Checkpointer
end Incll.Model
