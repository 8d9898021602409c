import LddSamples.Library.CArith
import LddSamples.Library.Runs
import LddSamples.Library.SparseFile
import LddSamples.Library.RetryLoop
import LddSamples.Scullc.TransferSpec
import LddSamples.Scullc.Invariant
import LddSamples.Scullc.Refinement
import LddSamples.Scullc.DeferOp
import LddSamples.Scullc.Divisors
import LddSamples.Scullc.SlabBounds
import LddSamples.Scullc.Concurrent
import LddSamples.Scullc.Async
import LddSamples.Scullc.Reclaim
import LddSamples.Scullc.Addressing
import LddSamples.Scullc.ReadFrame
import LddSamples.Scullc.WriteFailure
import LddSamples.Scullc.HandOver
import LddSamples.Char.Seek
import LddSamples.Char.Clamp
import LddSamples.Char.IoctlData
import LddSamples.Char.Poll
import LddSamples.Char.Fasync
import LddSamples.Char.Mmap
import LddSamples.Memory.Cache
import LddSamples.Interrupts.OneThreaded
import LddSamples.Interrupts.OneThread
import LddSamples.Interrupts.OneThreadImproved
import LddSamples.Interrupts.OneTaskletImproved
import LddSamples.Interrupts.AllThread
import LddSamples.Interrupts.AllLines
import LddSamples.Interrupts.AllDynamic
import LddSamples.Interrupts.StatsPage
import LddSamples.Interrupts.Uio
import LddSamples.Interrupts.Scancode
import LddSamples.Hardware.SerialMouse
import LddSamples.Hardware.FullMouse
import LddSamples.Hardware.MouseSignal
import LddSamples.Hardware.MouseFault
import LddSamples.Hardware.Silly
import LddSamples.Hardware.SillyExits
import LddSamples.Hardware.IoMem
import LddSamples.Block.MyRequest
import LddSamples.Block.OldRequest
import LddSamples.Block.Aliasing
import LddSamples.Block.Sbd
import LddSamples.Block.SectorUnits
import LddSamples.Block.MyInit
import LddSamples.Block.Geometry
import LddSamples.Dma.Ramdisk
import LddSamples.Dma.PutGet
import LddSamples.Dma.UserMap
import LddSamples.Dma.PinnedPages
import LddSamples.Dma.Aio
import LddSamples.Ioctl.Killable
import LddSamples.Ioctl.Semaphore
import LddSamples.Ioctl.Signal
import LddSamples.Ioctl.SignalSteps
import LddSamples.Timers.Periodic
import LddSamples.Timers.Multitimer
import LddSamples.Timers.Jiq
import LddSamples.Timers.Jit
import LddSamples.Sync.Completion
import LddSamples.Sync.Spinlock
import LddSamples.Sync.Contention
import LddSamples.Misc.WaitThread
import LddSamples.Devmodel.LddBus
import LddSamples.Modules.Loading
import LddSamples.Data.HashTable
import LddSamples.Data.Lists
import LddSamples.Data.Taints
import LddSamples.Debug.Procfs
import LddSamples.Debug.ProcSig
import LddSamples.Debug.ProcWrites
import LddSamples.Debug.Debugfs
import LddSamples.Debug.Proc
import LddSamples.Debug.SeqFile
import LddSamples.Debug.SeqRestart
import LddSamples.Network.Transmit
import LddSamples.Serial.TinySerial
import LddSamples.Serial.TinyTty
import LddSamples.Usb.ErrorReports
import LddSamples.Ioctl.Exclusive
import LddSamples.Library.Deferral
import LddSamples.Modules.Unloading
import LddSamples.Pci.DeviceFinder
