import MiniRedis.Theory.Buckets
import MiniRedis.Theory.Run
import MiniRedis.Theory.BalancedTree
import MiniRedis.Theory.Keyed
import MiniRedis.Theory.BinaryHeap
import MiniRedis.Theory.CircularList
import MiniRedis.Model.Common
import MiniRedis.Model.HashTable
import MiniRedis.Model.AvlTree
import MiniRedis.Verify.HashTable
import MiniRedis.Verify.HashMap
import MiniRedis.Verify.AvlRep
import MiniRedis.Verify.AvlHistory
import MiniRedis.Verify.AvlOffset
import MiniRedis.Verify.AvlSearch
import MiniRedis.Verify.SortedSet
import MiniRedis.Verify.Heap
import MiniRedis.Verify.HeapOrder
import MiniRedis.Theory.LittleEndian
import MiniRedis.Theory.Framing
import MiniRedis.Model.Serialize
import MiniRedis.Model.Commands
import MiniRedis.Model.Netio
import MiniRedis.Model.List
import MiniRedis.Model.EventLoop
import MiniRedis.Model.Client
import MiniRedis.Verify.List
import MiniRedis.Verify.Format
import MiniRedis.Verify.Protocol
import MiniRedis.Verify.Query
import MiniRedis.Verify.Server
import MiniRedis.Verify.Deadlines
import MiniRedis.Verify.Decoder
import MiniRedis.Verify.Numbers
import MiniRedis.Verify.Expiry
import MiniRedis.Verify.Commands
import MiniRedis.Verify.RangeQuery
import MiniRedis.Verify.Response
import MiniRedis.Verify.Client
import MiniRedis.Verify.Netio
import MiniRedis.Verify.NextTimer
import MiniRedis.Verify.EventLoop
import MiniRedis.Verify.History
import MiniRedis.Verify.Intents
import MiniRedis.Verify.Timers
import MiniRedis.Verify.KeyLaws
import MiniRedis.Verify.EndToEnd
import MiniRedis.Verify.Requests
import MiniRedis.Verify.Dictionary
import MiniRedis.Verify.Capacity
import MiniRedis.Model.ThreadPool
import MiniRedis.Theory.Threads
import MiniRedis.Verify.ThreadPool
import MiniRedis.Verify.Serial
import MiniRedis.Model.Session
import MiniRedis.Verify.Session
import MiniRedis.Verify.Memory
import MiniRedis.Verify.InBounds
import MiniRedis.Verify.Alike
import MiniRedis.Verify.Cost
import MiniRedis.Verify.Bounds
import MiniRedis.Verify.Locality
import MiniRedis.Verify.Reading
