import Xylem.Model.Machine
import Xylem.Lib.Forest
import Xylem.Lib.Run
import Xylem.Lib.Thread
import Xylem.View.Core
import Xylem.Tree.Tree
import Xylem.Tree.Steps
import Xylem.Ops.Prim
import Xylem.Ops.Unload
import Xylem.Ops.Load
import Xylem.Heap.WF
import Xylem.Heap.Prims
import Xylem.Heap.Vector
import Xylem.Heap.Facts
import Xylem.Ops.Dispatch
import Xylem.Heap.Inv
import Xylem.Heap.Loaded
import Xylem.Heap.Reloaded
import Xylem.Runs.Inv
import Xylem.Runs.Step
import Xylem.Runs.Trees
import Xylem.Runs.Effect
import Xylem.Runs.Reply
import Xylem.Runs.HookDenies
import Xylem.Lib.Nested
import Xylem.Runs.Prefixes
import Xylem.Heap.Cascade
import Xylem.Runs.Parents
import Xylem.Runs.Confined
import Xylem.Runs.OwnState
import Xylem.Heap.Rollback
import Xylem.Runs.Restored
import Xylem.Runs.Tables
import Xylem.Lib.Multi
import Xylem.Runs.Index
import Xylem.Runs.Gate
import Xylem.Model.Linked
import Xylem.Runs.Contexts
import Xylem.Model.Trampoline
import Xylem.Runs.Trampolines
import Xylem.Runs.DenyEntries
import Xylem.Heap.OpenLoad
import Xylem.Model.Script
import Xylem.Runs.Script
import Xylem.Runs.Registered
import Xylem.Heap.Topple
import Xylem.Runs.Orphans
import Xylem.Runs.Failed
import Xylem.Runs.Chains
import Xylem.Ops.Result
import Xylem.Runs.Last
import Xylem.Runs.Slots
import Xylem.Model.Watch
import Xylem.Watch.Paths
import Xylem.Watch.Locks
import Xylem.Watch.Sessions
import Xylem.Model.Lifetimes
import Xylem.Runs.Lifetimes
import Xylem.Runs.HookIds
import Xylem.Model.Threads
import Xylem.Runs.Threads
import Xylem.Ops.Accounts
import Xylem.Runs.Accounts
import Xylem.Runs.Vectors
import Xylem.Runs.Unseen
import Xylem.Runs.Twins
import Xylem.Runs.WholeCalls
import Xylem.Runs.Undisturbed
import Xylem.Lib.Hex
import Xylem.Model.Key
import Xylem.Runs.Keys
import Xylem.Model.Copy
import Xylem.Runs.Copies
import Xylem.Model.Each
import Xylem.Runs.Each
import Xylem.Heap.Order
import Xylem.Runs.Order
import Xylem.Runs.Dependencies
import Xylem.Runs.Reload
import Xylem.Runs.Replace
import Xylem.Heap.Reinsert
import Xylem.Runs.Position
import Xylem.Runs.Elementary
import Xylem.Runs.ClearSlots
import Xylem.Runs.ModuleDenies
import Xylem.Lib.Walk
import Xylem.Runs.Coherent
import Xylem.Runs.CoherentPrims
import Xylem.Runs.CoherentRuns
import Xylem.Runs.Served
import Xylem.Runs.Filled
import Xylem.Runs.PlainWalk
import Xylem.Lib.Cells
import Xylem.Runs.FastPath
import Xylem.Model.Storage
import Xylem.Runs.Storage
import Xylem.Heap.AnyLoad
import Xylem.Runs.Faultless
import Xylem.Lib.Records
import Xylem.Watch.Events
import Xylem.Runs.Below
import Xylem.Watch.Memory
import Xylem.Heap.Cleanups
import Xylem.Runs.Listeners
import Xylem.Runs.OwnSlots
