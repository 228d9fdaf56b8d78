import Manos.Kmalloc.Representation
import Manos.Kmalloc.Assertions
import Manos.Kmalloc.Rejection
import Manos.Process.Calls
import Manos.Process.RoundRobin
import Manos.Process.WaitPid
import Manos.Torgo.Quoting
import Manos.Fmt.Bounds
import Manos.Dev.Namespace
import Manos.Dev.Walk
import Manos.Lib.Paths
import Manos.Dev.Tree
import Manos.Dev.Walking
import Manos.Dev.Resolution
import Manos.Dev.Date
import Manos.Dev.Read
import Manos.Dev.Reading
import Manos.Dev.Lcd
import Manos.Lib.Strtol
import Manos.Dev.Fifo
import Manos.Dev.Uart
import Manos.Dev.Write
import Manos.Dev.Writing
import Manos.Dev.Transmit
import Manos.Process.Lock
import Manos.Process.RunQLock
import Manos.Dev.Children
import Manos.Dev.Static
import Manos.Dev.Listing
import Manos.Dev.Enumerate
import Manos.Dev.Files
import Manos.Dev.Opening
import Manos.Dev.Sequential
import Manos.Dev.Leaks
import Manos.Dev.Calls
import Manos.Dev.Life
import Manos.Dev.Descriptors
import Manos.Dev.Recycled
import Manos.Kmalloc.Quiet
import Manos.Kmalloc.Accounting
import Manos.Kmalloc.Reuse
import Manos.Kmalloc.Refusal
import Manos.Kmalloc.Sizes
import Manos.Dev.Calendar
import Manos.Dev.Splitting
import Manos.Process.Alarms
import Manos.Dev.Hotplug
import Manos.Dev.UartTable
import Manos.Kmalloc.Coalesce
import Manos.Kmalloc.Torn
import Manos.Lib.Objects
import Manos.Queues.Bounded
import Manos.Lib.BinaryHeap
import Manos.Queues.HeapQ
import Manos.Queues.Drain
import Manos.Torgo.Buffers
import Manos.Torgo.BufferRuns
import Manos.Torgo.Env
import Manos.Torgo.EnvLaws
import Manos.Torgo.EnvUpdates
import Manos.Torgo.Arguments
import Manos.Lib.Editing
import Manos.Torgo.Prompt
import Manos.Fmt.Numerals
import Manos.Fmt.Printing
import Manos.Fmt.Turns
import Manos.Fmt.Unlimited
import Manos.Fmt.Language
import Manos.Dev.Screen
import Manos.Dev.Baud
import Manos.Dev.Commands
import Manos.Process.Groups
import Manos.Process.Masks
import Manos.Kmalloc.BinOrder
import Manos.Kmalloc.Integrity
import Manos.Torgo.Exhaustion
import Manos.Fmt.Rendering
import Manos.Dev.Trails
import Manos.Lists.ForEach
import Manos.Process.Critical
import Manos.Process.Refs
import Manos.Dev.Receive
import Manos.Dev.Console
import Manos.Lib.Armv7m
import Manos.Process.Switch
import Manos.Process.Processors
import Manos.Process.Svc
import Manos.Lib.Loops
import Manos.Torgo.Echo
import Manos.Torgo.Session
import Manos.Dev.Execv
import Manos.Torgo.Launch
import Manos.Lib.Unlink
import Manos.Process.Exits
import Manos.Process.ExitStates
import Manos.Process.ExitPortals
import Manos.Lib.Removals
import Manos.Process.Settle
import Manos.Process.ExitQueues
import Manos.Process.ExitWakes
