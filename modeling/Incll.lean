import Incll.Lib.Machine
import Incll.Lib.Wlp
import Incll.Model.GlobalFlush
import Incll.Model.IncllLv
import Incll.Model.Kpermuter
import Incll.Model.Key
import Incll.Model.Stringbag
import Incll.Model.PExtNodeLogger
import Incll.Model.Extflush
import Incll.Model.PPP
import Incll.Model.Leaf
import Incll.Model.LeafBody
import Incll.Model.Node
import Incll.Model.Query
import Incll.Model.Layers
import Incll.Model.Locks
import Incll.Model.LogRecord
import Incll.Model.Loginfo
import Incll.Model.Replay
import Incll.Model.Logreplay
import Incll.Model.Memory
import Incll.Model.Kvthread
import Incll.Model.ThreadLog
import Incll.Model.Tree
import Incll.Model.Recovery
import Incll.Model.Threads
import Incll.Proof.Flush.Checkpoints
import Incll.Proof.Flush.Exclusion
import Incll.Proof.Flush.Parking
import Incll.Proof.Leaf.SingleEntry
import Incll.Proof.Leaf.Permuter
import Incll.Proof.Leaf.Entries
import Incll.Proof.Leaf.Suffix
import Incll.Proof.Leaf.Split
import Incll.Proof.Leaf.Crash
import Incll.Proof.Leaf.Phantom
import Incll.Proof.Leaf.Epoch
import Incll.Proof.Log.Ring
import Incll.Proof.Log.Undo
import Incll.Proof.Log.NextPrev
import Incll.Proof.Log.Durable
import Incll.Proof.PPP
import Incll.Proof.Tree.Micro
import Incll.Proof.Tree.Sound
import Incll.Proof.Tree.Runs
import Incll.Proof.Tree.Walk
import Incll.Proof.Tree.Cover
import Incll.Proof.Tree.Operations
import Incll.Proof.Tree.Sample
import Incll.Proof.Tree.Coverage
import Incll.Proof.Tree.Pending
import Incll.Proof.Tree.Restart
import Incll.Proof.Tree.Crashes
import Incll.Proof.Threads.Phases
import Incll.Proof.Threads.Rollback
import Incll.Proof.Threads.Records
import Incll.Proof.Locks.Links
import Incll.Proof.Locks.Waits
import Incll.Proof.Reuse
import Incll.Proof.Loginfo.Codec
import Incll.Proof.Loginfo.Epochs
import Incll.Proof.Replay.Order
import Incll.Proof.Replay.Files
import Incll.Proof.Replay.Cut
import Incll.Proof.Replay.Bounds
import Incll.Proof.Replay.Recovered
import Incll.Proof.Replay.Complete
import Incll.Model.Allthreads
import Incll.Proof.Allthreads
import Incll.Model.Pool
import Incll.Proof.Pool
import Incll.Model.Rcu
import Incll.Proof.Rcu
import Incll.Model.Timestamps
import Incll.Proof.Timestamps
import Incll.Model.Msgpack
import Incll.Proof.Loginfo.Changes
import Incll.Model.Kvrow
import Incll.Proof.Kvrow.Bag
import Incll.Proof.Kvrow.Rows
import Incll.Model.StreamingParser
import Incll.Proof.Msgpack.Turns
import Incll.Proof.Msgpack.Chunks
import Incll.Proof.Msgpack.Headers
import Incll.Proof.Msgpack.RoundTrip
import Incll.Model.Leaflink
import Incll.Proof.Leaflink.Touched
import Incll.Proof.Leaflink.Neighbours
import Incll.Proof.Leaflink.Repair
import Incll.Model.Versions
import Incll.Proof.Versions
import Incll.Model.Checkpoint
import Incll.Proof.Checkpoint.Commit
import Incll.Proof.Msgpack.Skip
import Incll.Model.LogMapping
import Incll.Proof.Replay.Mapping
import Incll.Model.Rows
import Incll.Proof.Replay.Removes
import Incll.Model.ParserReads
import Incll.Proof.Msgpack.Reads
import Incll.Lib.Links
import Incll.Model.Limbo
import Incll.Proof.Limbo
import Incll.Lib.Wp
import Incll.Lib.Tiling
import Incll.Proof.Layers.Run
import Incll.Proof.Layers.Keys
import Incll.Proof.Layers.Search
import Incll.Proof.Layers.LeafEntries
import Incll.Proof.Layers.LeafSplit
import Incll.Proof.Layers.Reserve
import Incll.Proof.Layers.Slots
import Incll.Proof.Layers.Shape
import Incll.Proof.Layers.Separators
import Incll.Proof.Layers.Layer
import Incll.Proof.Layers.Grow
import Incll.Proof.Layers.Hang
import Incll.Proof.Layers.SplitUp
import Incll.Proof.Layers.SplitLeaf
import Incll.Proof.Layers.LinkSplit
import Incll.Proof.Layers.MakeSplit
import Incll.Proof.Layers.SplitEntries
import Incll.Proof.Layers.SplitTree
import Incll.Proof.Ksearch
import Incll.Proof.Kpermuter.Words
import Incll.Proof.NodeversionWord
import Incll.Proof.KeyBytes
import Incll.Proof.Kvrow.Size
import Incll.Proof.Ksuf.Run
import Incll.Proof.Layers.LayerCreation
import Incll.Proof.RowBlocks.Values
import Incll.Proof.RowBlocks.Run
import Incll.Proof.BtreeLeaflink.Reader
import Incll.Proof.Layers.RemoveLeaf
import Incll.Proof.Table.Session
