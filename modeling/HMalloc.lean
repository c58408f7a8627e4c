import HMalloc.Accounts
import HMalloc.Acquire
import HMalloc.AddressSpace
import HMalloc.Advance
import HMalloc.AfterSteps
import HMalloc.Agreement
import HMalloc.AllocCalls
import HMalloc.AllocRuns
import HMalloc.AllocSteps
import HMalloc.Answers
import HMalloc.AtomicHeap
import HMalloc.AtomicSteps
import HMalloc.AtomicView
import HMalloc.BlockWrites
import HMalloc.Blocks
import HMalloc.CallRuns
import HMalloc.Calls
import HMalloc.Central
import HMalloc.CentralCalls
import HMalloc.CentralGhost
import HMalloc.CentralOps
import HMalloc.CentralRuns
import HMalloc.CentralSteps
import HMalloc.ClassLists
import HMalloc.Classes
import HMalloc.Conservation
import HMalloc.Constants
import HMalloc.Counters
import HMalloc.Deadlock
import HMalloc.Deliver
import HMalloc.Effects
import HMalloc.ExitSteps
import HMalloc.Failure
import HMalloc.FastPath
import HMalloc.Footprint
import HMalloc.Foreign
import HMalloc.Frames
import HMalloc.FreeSteps
import HMalloc.Grants
import HMalloc.Invariant
import HMalloc.Inversion
import HMalloc.Large
import HMalloc.LargeRequest
import HMalloc.LargeSteps
import HMalloc.Lib.AtomicMax
import HMalloc.Lib.Bytes
import HMalloc.Lib.Count
import HMalloc.Lib.Handover
import HMalloc.Lib.Linked
import HMalloc.Lib.PartialMap
import HMalloc.Lib.Potential
import HMalloc.Lib.Probe
import HMalloc.Lib.Ranking
import HMalloc.Lib.Refinement
import HMalloc.Lib.Tally
import HMalloc.Lib.Views
import HMalloc.Lib.Word
import HMalloc.Linearization
import HMalloc.Mapping
import HMalloc.Os
import HMalloc.OutOfMemory
import HMalloc.Override
import HMalloc.OwnerLoads
import HMalloc.Owners
import HMalloc.Ownership
import HMalloc.Page
import HMalloc.PageOps
import HMalloc.PageSteps
import HMalloc.Peak
import HMalloc.Pointers
import HMalloc.PoolReturn
import HMalloc.Process
import HMalloc.Quiescence
import HMalloc.Realloc
import HMalloc.Regions
import HMalloc.Registry
import HMalloc.RegistryCost
import HMalloc.RegistryGrowth
import HMalloc.RegistrySet
import HMalloc.Release
import HMalloc.RemoteFree
import HMalloc.Requests
import HMalloc.Retention
import HMalloc.Returning
import HMalloc.Reuse
import HMalloc.Safety
import HMalloc.Schedule
import HMalloc.SegmentMap
import HMalloc.SizeClass
import HMalloc.SizeTable
import HMalloc.SlowPath
import HMalloc.SlowRuns
import HMalloc.Stats
import HMalloc.Store
import HMalloc.Sweep
import HMalloc.Synchronisation
import HMalloc.System
import HMalloc.Thread
import HMalloc.ThreadExit
import HMalloc.ThreadFree
import HMalloc.ThreadInv
import HMalloc.Transit
import HMalloc.Writes
