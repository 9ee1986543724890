import SimpleDb.Search.LowerBound
import SimpleDb.Buffer.Manager
import SimpleDb.Buffer.Step
import SimpleDb.Buffer.Queues
import SimpleDb.Buffer.Policy
import SimpleDb.Buffer.Cache
import SimpleDb.BTree.Node
import SimpleDb.BTree.Tree
import SimpleDb.BTree.Ops
import SimpleDb.BTree.Audit
import SimpleDb.BTree.Update
import SimpleDb.BTree.Run
import SimpleDb.BTree.Descent
import SimpleDb.BTree.Measure
import SimpleDb.BTree.Insert
import SimpleDb.BTree.Session
import SimpleDb.BTree.Failure
import SimpleDb.BTree.NodeMap
import SimpleDb.Segment.Fsi
import SimpleDb.Segment.SlottedPage
import SimpleDb.Segment.PageView
import SimpleDb.Segment.SpSegment
import SimpleDb.Segment.SpAllocate
import SimpleDb.Segment.SpRecords
import SimpleDb.Segment.SpResize
import SimpleDb.Segment.SpStore
import SimpleDb.Segment.SpLatches
import SimpleDb.Segment.SpInterleave
