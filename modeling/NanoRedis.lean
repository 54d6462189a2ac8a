import NanoRedis.Avl.Balancing
import NanoRedis.Avl.Defs
import NanoRedis.Avl.Deletion
import NanoRedis.Avl.Heights
import NanoRedis.Avl.Insertion
import NanoRedis.Avl.Rebalancing
import NanoRedis.Avl.Repair
import NanoRedis.Avl.Runs
import NanoRedis.Client.Decoder
import NanoRedis.Client.Defs
import NanoRedis.Client.Grammar
import NanoRedis.Client.Keys
import NanoRedis.Client.Replies
import NanoRedis.Client.Requests
import NanoRedis.Client.Safety
import NanoRedis.Client.Session
import NanoRedis.Hash
import NanoRedis.HashTable.Defs
import NanoRedis.HashTable.Growth
import NanoRedis.HashTable.Load
import NanoRedis.HashTable.Map
import NanoRedis.HashTable.Operations
import NanoRedis.HashTable.Resize
import NanoRedis.HashTable.Runs
import NanoRedis.HashTable.Table
import NanoRedis.HashTable.Work
import NanoRedis.Lib.Amortized
import NanoRedis.Lib.Buckets
import NanoRedis.Lib.Digest
import NanoRedis.Lib.Exec
import NanoRedis.Lib.Heap
import NanoRedis.Lib.LinkedTree
import NanoRedis.Lib.Run
import NanoRedis.Lib.Simulation
import NanoRedis.Lib.Trace
import NanoRedis.Lib.TreePath
import NanoRedis.Lib.Wire
import NanoRedis.Memory
import NanoRedis.Reply
import NanoRedis.Server.Batches
import NanoRedis.Server.Bounds
import NanoRedis.Server.Calls
import NanoRedis.Server.Closing
import NanoRedis.Server.Connection
import NanoRedis.Server.Defs
import NanoRedis.Server.Delivery
import NanoRedis.Server.Encoders
import NanoRedis.Server.Flush
import NanoRedis.Server.Fragments
import NanoRedis.Server.History
import NanoRedis.Server.Limits
import NanoRedis.Server.Linearizable
import NanoRedis.Server.Loop
import NanoRedis.Server.Pacing
import NanoRedis.Server.Recognition
import NanoRedis.Server.Requests
import NanoRedis.Server.Runs
import NanoRedis.Server.Serve
import NanoRedis.Server.Stops
import NanoRedis.Store.Defs
import NanoRedis.Store.Faults
import NanoRedis.Store.Flooding
import NanoRedis.Store.Memory
import NanoRedis.Store.Reference
import NanoRedis.Store.Refinement
import NanoRedis.Utils
import NanoRedis.ZSet.Defs
import NanoRedis.ZSet.Lookup
import NanoRedis.ZSet.Order
import NanoRedis.ZSet.Runs
import NanoRedis.ZSet.Standstill
