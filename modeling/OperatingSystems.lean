import OperatingSystems.Library.CoSet
import OperatingSystems.Library.Run
import OperatingSystems.Interceptor.Table
import OperatingSystems.Interceptor.Requests
import OperatingSystems.Interceptor.Rows
import OperatingSystems.Interceptor.Monitoring
import OperatingSystems.Interceptor.Contract
import OperatingSystems.Interceptor.Unload
import OperatingSystems.Library.Bytes
import OperatingSystems.Paging.Accesses
import OperatingSystems.Paging.Consistency
import OperatingSystems.Paging.Contents
import OperatingSystems.Paging.Transparency
import OperatingSystems.Library.Links
import OperatingSystems.Library.Recency
import OperatingSystems.Paging.Lru
import OperatingSystems.Library.SecondChance
import OperatingSystems.Paging.Clock
import OperatingSystems.Paging.Fifo
import OperatingSystems.Library.Threads
import OperatingSystems.Traffic.Conservation
import OperatingSystems.Traffic.Progress
import OperatingSystems.Paging.Counters
import OperatingSystems.Paging.CleanEvictions
import OperatingSystems.Paging.Overflow
import OperatingSystems.Paging.Evictions
import OperatingSystems.Paging.Inclusion
import OperatingSystems.Paging.PageTrace
import OperatingSystems.Interceptor.Isolation
import OperatingSystems.Interceptor.Hooks
import OperatingSystems.Interceptor.Exits
import OperatingSystems.Traffic.Quadrants
import OperatingSystems.Traffic.Buffers
import OperatingSystems.Paging.Slots
import OperatingSystems.Library.Scanning
import OperatingSystems.Paging.TraceFile
import OperatingSystems.Paging.Opt
import OperatingSystems.Paging.Furthest
import OperatingSystems.Paging.FrameNumbers
import OperatingSystems.Library.Process
import OperatingSystems.Library.Records
import OperatingSystems.Ext2.Creations
import OperatingSystems.Ext2.Additions
import OperatingSystems.Ext2.Restoration
import OperatingSystems.Ext2.Repairs
import OperatingSystems.Ext2.Marks
import OperatingSystems.Ext2.Counts
import OperatingSystems.Ext2.Atomicity
import OperatingSystems.Library.Strings
import OperatingSystems.Library.Loops
import OperatingSystems.Ext2.Paths
import OperatingSystems.Ext2.Cursors
import OperatingSystems.Ext2.Lookups
import OperatingSystems.Ext2.Scans
import OperatingSystems.Ext2.Walks
import OperatingSystems.Ext2.Unlinks
import OperatingSystems.Ext2.Copies
import OperatingSystems.Ext2.MakeDirs
import OperatingSystems.Ext2.Tallies
import OperatingSystems.Library.Caching
import OperatingSystems.Paging.Demand
import OperatingSystems.Paging.Optimality
import OperatingSystems.Paging.Retention
import OperatingSystems.Library.Budgets
import OperatingSystems.Traffic.Termination
import OperatingSystems.Traffic.Printing
import OperatingSystems.Interceptor.Linearization
import OperatingSystems.Interceptor.Returns
import OperatingSystems.Library.Epochs
import OperatingSystems.Paging.Fastslim
import OperatingSystems.Library.Grids
import OperatingSystems.TracePrograms.Matmul
import OperatingSystems.TracePrograms.Blocked
import OperatingSystems.Ext2.Arguments
import OperatingSystems.Library.Texts
import OperatingSystems.Paging.Dump
import OperatingSystems.Ext2.Refinement
