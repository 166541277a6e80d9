import OsispLabs.Lib.Execution
import OsispLabs.Lib.CircularView
import OsispLabs.Lib.Counting
import OsispLabs.Lib.Cancellation
import OsispLabs.Lib.RangeLock
import OsispLabs.Lib.Descriptor
import OsispLabs.Lib.Framing
import OsispLabs.Lib.Traversal
import OsispLabs.Lib.Refinement
import OsispLabs.Lib.Layout
import OsispLabs.Lab1.Completeness
import OsispLabs.Lab1.Output
import OsispLabs.Lab2.Environment
import OsispLabs.Lab2.Parent
import OsispLabs.Lab3.LateSamples
import OsispLabs.Lab3.ChildTable
import OsispLabs.Lab3.Permission
import OsispLabs.Lab3.Reaping
import OsispLabs.Lab4.Delivery
import OsispLabs.Lab4.Signals
import OsispLabs.Lab4.Capacity
import OsispLabs.Lab4.Slots
import OsispLabs.Lab5.Condvar.Fifo
import OsispLabs.Lab5.Condvar.Resize
import OsispLabs.Lab5.Condvar.IndexSafety
import OsispLabs.Lab5.Condvar.Wakeup
import OsispLabs.Lab5.Condvar.Throughput
import OsispLabs.Lab5.Condvar.Linearization
import OsispLabs.Lab5.Semaphore.Fifo
import OsispLabs.Lab5.Semaphore.Shrink
import OsispLabs.Lab5.Semaphore.Throughput
import OsispLabs.Lab5.Semaphore.Resizing
import OsispLabs.Lab5.Semaphore.Destroy
import OsispLabs.Lab5.Cancellation
import OsispLabs.Lab5.Message
import OsispLabs.Lab6.ScheduleIndependence
import OsispLabs.Lab6.UnsortedFile
import OsispLabs.Lab6.Preservation
import OsispLabs.Lab6.IndexFormat
import OsispLabs.Lab6.LastMerge
import OsispLabs.Lab6.Offsets
import OsispLabs.Lab6.MergedRuns
import OsispLabs.Lab6.ArgumentChecks
import OsispLabs.Lab7.LostUpdate
import OsispLabs.Lab7.EditOrigin
import OsispLabs.Lab7.LockRelease
import OsispLabs.Lab7.SelfConflict
import OsispLabs.Lab7.RecordNumbers
import OsispLabs.Lab7.Snapshot
import OsispLabs.Lab7.Format
import OsispLabs.Lab7.Contents
import OsispLabs.Lab8.Ownership
import OsispLabs.Lab8.FailureIsolation
import OsispLabs.Lab8.Isolation
import OsispLabs.Lab8.Lockstep
import OsispLabs.Lab8.Turns
import OsispLabs.Lab8.Prompt
import OsispLabs.Lab8.Listing
import OsispLabs.Lab8.Segments
import OsispLabs.Lab8.Codec
import OsispLabs.Lab8.Capacity
import OsispLabs.Lab8.PathArithmetic
