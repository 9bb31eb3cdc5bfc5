import X86Kernel.Lib.Run
import X86Kernel.Lib.Chain
import X86Kernel.Lib.RefCount
import X86Kernel.Lib.Bytes
import X86Kernel.Lib.Lines
import X86Kernel.Lib.Radix
import X86Kernel.Lib.Numeral
import X86Kernel.Lib.Text
import X86Kernel.Proc.Task
import X86Kernel.Proc.Terminal
import X86Kernel.Proc.Sched
import X86Kernel.Proc.Lines
import X86Kernel.Proc.Delivery
import X86Kernel.Proc.Invariant
import X86Kernel.Proc.Wakeup
import X86Kernel.Proc.Running
import X86Kernel.Proc.Preempt
import X86Kernel.Proc.Readers
import X86Kernel.Proc.Slots
import X86Kernel.Proc.Life
import X86Kernel.Proc.Sleepers
import X86Kernel.Proc.Turns
import X86Kernel.Dev.Screen
import X86Kernel.Dev.Console
import X86Kernel.Fs.Tarfs
import X86Kernel.Fs.Descriptors
import X86Kernel.Fs.Inherit
import X86Kernel.Fs.Ustar
import X86Kernel.Fs.Lookup
import X86Kernel.Fs.TruePath
import X86Kernel.Fs.Bounds
import X86Kernel.Fs.Sizes
import X86Kernel.Fs.Directory
import X86Kernel.Fs.Chdir
import X86Kernel.Fs.Listing
import X86Kernel.Fs.Reading
import X86Kernel.Dev.Print
import X86Kernel.Dev.Render
import X86Kernel.Paging.Entry
import X86Kernel.Paging.Phys
import X86Kernel.Paging.Inv
import X86Kernel.Paging.Effects
import X86Kernel.Paging.Steps
import X86Kernel.Paging.Walk
import X86Kernel.Paging.Map
import X86Kernel.Paging.Dealloc
import X86Kernel.Paging.Copy
import X86Kernel.Paging.Extend
import X86Kernel.Paging.Frames
import X86Kernel.Paging.Supply
import X86Kernel.Paging.Boot
import X86Kernel.Paging.Tree
import X86Kernel.Paging.Share
import X86Kernel.Paging.Release
import X86Kernel.Paging.Regions
import X86Kernel.Kern.Space
import X86Kernel.Kern.Area
import X86Kernel.Kern.Valid
import X86Kernel.Kern.Remove
import X86Kernel.Kern.Fork
import X86Kernel.Kern.Load
import X86Kernel.Kern.Fault
import X86Kernel.Kern.Heap
import X86Kernel.Kern.View
import X86Kernel.Kern.Exec
import X86Kernel.Kern.System
import X86Kernel.Kern.Good
import X86Kernel.Kern.Start
import X86Kernel.Kern.Room
import X86Kernel.Kern.CopyOnWrite
import X86Kernel.Kern.Account
import X86Kernel.Kern.Places
import X86Kernel.Kern.Destroy
import X86Kernel.Kern.Resolve
import X86Kernel.Kern.Accept
import X86Kernel.Kern.Growth
import X86Kernel.Kern.Progress
import X86Kernel.Kern.Arguments
import X86Kernel.Kern.Neutral
import X86Kernel.Kern.Segments
import X86Kernel.Kern.Residue
import X86Kernel.Kern.Replace
import X86Kernel.Kern.Call
import X86Kernel.Kern.Child
import X86Kernel.Kern.Full
import X86Kernel.Kern.Sbrk
import X86Kernel.Libc.Sound
import X86Kernel.Libc.Canonical
import X86Kernel.Libc.Limits
import X86Kernel.Libc.Strings
import X86Kernel.Libc.Env
import X86Kernel.Libc.Format
import X86Kernel.Libc.Printf
import X86Kernel.Shell.Tokens
import X86Kernel.Shell.Commands
import X86Kernel.Shell.Background
import X86Kernel.Shell.Script
import X86Kernel.Shell.Session
import X86Kernel.Kern.Isolation
import X86Kernel.Kern.Main
import X86Kernel.Paging.Top
import X86Kernel.Kern.KernelHalf
import X86Kernel.Kern.Protection
import X86Kernel.Kern.Covered
import X86Kernel.Kern.UserHeap
import X86Kernel.Dev.Echo
