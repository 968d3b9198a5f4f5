import Zedis.BTree.Invariant
import Zedis.BTree.ScoreMap
import Zedis.Slab.Layout
import Zedis.Registry.NoTrace
import Zedis.Resp.Refined
import Zedis.Server.Framing
import Zedis.Server.Ranges
import Zedis.Server.ReadBack
import Zedis.Server.Publish
import Zedis.Server.Reading
import Zedis.Server.Numbers
import Zedis.Registry.Segments
import Zedis.AppendLog.Window
import Zedis.AppendLog.File
import Zedis.Registry.Restart
import Zedis.Server.Conns
import Zedis.Server.Channels
import Zedis.EventLoop.Model
import Zedis.EventLoop.Reach
import Zedis.EventLoop.Output
import Zedis.EventLoop.Limit
import Zedis.EventLoop.Inert
import Zedis.Resp.Demand
import Zedis.EventLoop.Leaks
import Zedis.HashTable.Accounting
import Zedis.OrderBook.Accounting
import Zedis.Server.Orders
import Zedis.Lib.Smear
import Zedis.RingBuffer.Capacity
import Zedis.RingBuffer.Queue
import Zedis.Server.Receivers
import Zedis.Lib.Scan
import Zedis.Resp.Reads
import Zedis.Resp.RoundTrip
import Zedis.Resp.Consumed
import Zedis.EventLoop.Dispatch
import Zedis.Resp.Spent
import Zedis.Resp.Conserved
import Zedis.Arena.Regions
import Zedis.AppendLog.Offsets
import Zedis.Slab.Partition
import Zedis.Lib.DoublyLinked
import Zedis.Server.Links
import Zedis.Resp.ByteQueue
import Zedis.Resp.Inline
import Zedis.BTree.Room
import Zedis.Server.Scores
import Zedis.Server.Families
import Zedis.EventLoop.Streams
import Zedis.RingBuffer.Concurrent
import Zedis.Slab.Concurrent
import Zedis.EventLoop.Wakeups
import Zedis.EventLoop.PubSub
