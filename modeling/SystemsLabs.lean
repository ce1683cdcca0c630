import SystemsLabs.Theory.ByteMemory
import SystemsLabs.Theory.ByteStrings
import SystemsLabs.Theory.PointerPath
import SystemsLabs.Theory.SeveredList
import SystemsLabs.Theory.Coalescing
import SystemsLabs.Theory.Runs
import SystemsLabs.Theory.Lru
import SystemsLabs.Theory.RwLock
import SystemsLabs.Theory.Loops
import SystemsLabs.Theory.LinkedTree
import SystemsLabs.Theory.Pulling
import SystemsLabs.Theory.Amounts
import SystemsLabs.Bits.Puzzles
import SystemsLabs.Malloc.PackedWord
import SystemsLabs.Malloc.Allocator
import SystemsLabs.Malloc.FreeList
import SystemsLabs.Malloc.Blocks
import SystemsLabs.Malloc.Layout
import SystemsLabs.Malloc.ListFamily
import SystemsLabs.Malloc.Hole
import SystemsLabs.Malloc.Free
import SystemsLabs.Malloc.FreeOrder
import SystemsLabs.Malloc.FindFit
import SystemsLabs.Malloc.Split
import SystemsLabs.Malloc.Extend
import SystemsLabs.Malloc.Segment
import SystemsLabs.Malloc.Allocate
import SystemsLabs.Malloc.Interface
import SystemsLabs.Malloc.Session
import SystemsLabs.Malloc.CheckHeap
import SystemsLabs.Malloc.Sizes
import SystemsLabs.Proxy.Cache
import SystemsLabs.Proxy.Queue
import SystemsLabs.Proxy.Adding
import SystemsLabs.Proxy.ReplaceTail
import SystemsLabs.Proxy.LruQueue
import SystemsLabs.Proxy.Capacity
import SystemsLabs.Proxy.Threads
import SystemsLabs.Proxy.RwLock
import SystemsLabs.Proxy.Unique
import SystemsLabs.Proxy.Forward
import SystemsLabs.Proxy.Request
import SystemsLabs.Proxy.Service
import SystemsLabs.Csapp.Rio
import SystemsLabs.Csapp.RioStream
import SystemsLabs.Csapp.RioWriting
import SystemsLabs.Theory.Buffers
import SystemsLabs.Csapp.Sio
import SystemsLabs.Csapp.SioPrinting
import SystemsLabs.Proxy.Relay
import SystemsLabs.CacheSim.Simulator
import SystemsLabs.CacheSim.Filling
import SystemsLabs.CacheSim.Conservation
import SystemsLabs.CacheSim.Lru
import SystemsLabs.CacheSim.Main
import SystemsLabs.CacheSim.Address
import SystemsLabs.CacheSim.Summary
import SystemsLabs.Transpose.Trans
import SystemsLabs.Shell.Parseline
import SystemsLabs.Shell.Grammar
import SystemsLabs.Shell.Render
import SystemsLabs.Shell.JobList
import SystemsLabs.Shell.JobHistory
import SystemsLabs.Shell.Eval
import SystemsLabs.Shell.Commands
import SystemsLabs.Shell.Returns
import SystemsLabs.Shell.Foreground
import SystemsLabs.Shell.Tracking
import SystemsLabs.Shell.Survival
import SystemsLabs.Driver.SplayTree
import SystemsLabs.Driver.SplayLinks
import SystemsLabs.Driver.SplaySearch
import SystemsLabs.Driver.SplayMap
import SystemsLabs.Driver.RangeSet
import SystemsLabs.Theory.KeyedLists
import SystemsLabs.Driver.RangeRecords
import SystemsLabs.Driver.RangeList
import SystemsLabs.Driver.Overlap
import SystemsLabs.Driver.RangeChains
import SystemsLabs.Theory.Scanning
import SystemsLabs.Driver.ReadTrace
import SystemsLabs.Driver.TraceFiles
import SystemsLabs.Driver.Evaluate
import SystemsLabs.Driver.Contract
import SystemsLabs.Driver.SlotTable
import SystemsLabs.Driver.Verdict
import SystemsLabs.Driver.MmNaive
import SystemsLabs.Driver.MmPackage
import SystemsLabs.Driver.Utilization
import SystemsLabs.Driver.SparseHeap
import SystemsLabs.Driver.SparsePages
import SystemsLabs.Driver.FlatMemory
import SystemsLabs.Driver.Emulation
import SystemsLabs.Tiny.Server
import SystemsLabs.Tiny.Paths
import SystemsLabs.Tiny.Responses
import SystemsLabs.Tiny.Serving
import SystemsLabs.Tiny.Get
