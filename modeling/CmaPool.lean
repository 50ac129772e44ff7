import CmaPool.Python.Failures
import CmaPool.Python.Insertion
import CmaPool.Python.Unmoveable
import CmaPool.Python.Compaction
import CmaPool.Drm.Mm
import CmaPool.Drm.Holes
import CmaPool.Drm.Validity
import CmaPool.Drm.Insert
import CmaPool.Drm.Remove
import CmaPool.Drm.Search
import CmaPool.Drm.Scan
import CmaPool.TestDrm.CString
import CmaPool.TestDrm.Program
import CmaPool.TestDrm.Commands
import CmaPool.TestDrm.Consistency
import CmaPool.TestDrm.Eviction
import CmaPool.TestDrm.PageIn
import CmaPool.TestDrm.Steps
import CmaPool.TestDrm.Runs
import CmaPool.TestDrm.Invariant
import CmaPool.TestDrm.Completeness
import CmaPool.TestDrm.Pinned
import CmaPool.TestDrm.Ledger
import CmaPool.TestDrm.Aborts
import CmaPool.TestDrm.Madv
import CmaPool.Compare.Eviction
import CmaPool.Lib.Accounting
import CmaPool.Python.Overflow
import CmaPool.TestDrm.Overflow
import CmaPool.Compare.Overflow
import CmaPool.Lib.Recency
import CmaPool.Python.Recency
import CmaPool.TestDrm.Recency
import CmaPool.Compare.Recency
import CmaPool.TestDrm.ScanProtocol
import CmaPool.TestDrm.Displaced
import CmaPool.Compare.Table
import CmaPool.Python.ProcPool
import CmaPool.TestDrm.Reading
import CmaPool.Compare.Forwarding
import CmaPool.Compare.InStep
import CmaPool.Lib.Pattern
import CmaPool.Python.LogLine
import CmaPool.Compare.Identity
import CmaPool.Compare.Session
import CmaPool.Compare.Traffic
import CmaPool.Compare.Snapshot
import CmaPool.Lib.Lifting
import CmaPool.Lib.Lines
import CmaPool.Lib.Json
import CmaPool.TestDrm.Printing
import CmaPool.TestDrm.Dump
import CmaPool.TestDrm.Rejection
import CmaPool.Lib.Digits
import CmaPool.Python.Numerals
import CmaPool.Lib.Coding
import CmaPool.TestDrm.SizeText
import CmaPool.Compare.Creation
import CmaPool.Lib.Sampling
import CmaPool.Python.Video
import CmaPool.TestDrm.Stream
import CmaPool.Compare.Process
import CmaPool.Compare.Recording
import CmaPool.Compare.Frames
import CmaPool.Lib.Cursor
import CmaPool.Lib.RedBlack
import CmaPool.Rbtree.Node
import CmaPool.Rbtree.Stored
import CmaPool.Rbtree.Rotate
import CmaPool.Rbtree.Augment
import CmaPool.Rbtree.Insert
import CmaPool.Rbtree.EraseColor
import CmaPool.Rbtree.Erase
import CmaPool.Rbtree.Walk
import CmaPool.Rbtree.Tree
import CmaPool.Rbtree.Cached
import CmaPool.Rbtree.Interval
import CmaPool.Rbtree.IntervalInsert
import CmaPool.Drm.Trees
import CmaPool.Drm.TreeHoles
import CmaPool.Drm.TreeSteps
import CmaPool.Drm.TreeRuns
import CmaPool.TestDrm.Trees
