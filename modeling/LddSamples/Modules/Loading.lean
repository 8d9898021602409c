import LddSamples.Library.Unwind

/-!
# Loading and unloading the drivers

What the `module_init` and `module_exit` routines take from the kernel and give back, in
their order. A refusal is seen where the result is compared with what the kernel reports:
a result that is not looked at is not, and neither is the error pointer of `kthread_run`
or `kthread_create` by a comparison with `NULL`. What was refused all the same may be used
later in the routine, as by `wake_up_process` or through the pointer.
-/

namespace LddSamples.Modules

open Unwind

inductive Resource
  | chrdev
  | region
  | fooClass
  | device
  | cdev
  | earlyCdev
  | misc
  | memory
  | nevents
  | cache
  | timerData
  | timer
  | irq
  | thread1
  | thread2
  | workqueue
  | ioRegion
  | ioBase
  | procDir
  | procEntry
  | procEntry2
  | kprobe
  | bus
  | busDevice
  | plainDevice
  | firmware
  | queue
  | blkdev
  | disk
  | addedDisk
  | ttyDriver
  | ttyRegistered
  | tiny (i : ℕ)
  | ttyDevice (i : ℕ)
  deriving DecidableEq

/-- `kfree(NULL)` and `iounmap(NULL)` do nothing, nor does `device_destroy` where there is no
such device; but it follows the pointer to the class. -/
def tolerates : Resource → Bool
  | .memory | .nevents | .timerData | .tiny _ | .ioBase | .device => true
  | _ => false

/-- `register_chrdev`, `class_create` and `device_create`, as most drivers begin. -/
def register : List (Step Resource) :=
  [.checked .chrdev [], .checked .fooClass [.chrdev], .checked .device [.fooClass, .chrdev]]

/-- `device_destroy`, `class_unregister`, `class_destroy`, which unregisters the class too,
and `unregister_chrdev`, as they end. -/
def unregister : List Resource := [.device, .fooClass, .fooClass, .chrdev]

/-! ## char, sync, defer, memory -/

/-- char/lab1_char_init and defer/defer_lab2_tasklet. -/
def charInit : Driver Resource := ⟨register, unregister, by decide⟩

/-- char/lab2_char_read_write and the later labs there, and io/lab3_mmap. -/
def charReadWrite : Driver Resource where
  steps := register ++ [.checked .memory [.device, .fooClass, .chrdev]]
  exit := .memory :: unregister
  nodup := by decide

def spinlock : Driver Resource where
  steps := register ++ [.checked .memory [.device, .fooClass, .chrdev], .unchecked .thread1,
    .unchecked .thread2]
  exit := [.memory, .thread1, .thread2] ++ unregister
  nodup := by decide

/-- The thread is made with `kthread_create` and woken in the same routine. -/
def completion : Driver Resource where
  steps := register ++ [.checked .memory [.device, .fooClass, .chrdev], .unchecked .thread1,
    .uses .thread1]
  exit := .memory :: unregister
  nodup := by decide

def deferTimer : Driver Resource where
  steps := register ++ [.checked .timerData [.device, .fooClass, .chrdev], .sure .timer]
  exit := [.timer, .timerData] ++ unregister
  nodup := by decide

def deferWorkqueue : Driver Resource where
  steps := [.checked .irq [], .checked .chrdev [.irq], .checked .fooClass [.irq, .chrdev],
    .checked .device [.irq, .fooClass, .chrdev]]
  exit := .irq :: unregister
  nodup := by decide

/-- memory/memory_lab2_cache; the size of an object is compared with a bound. -/
def memoryCache : Driver Resource where
  steps := register ++ [.guard [.device, .fooClass, .chrdev],
    .checked .cache [.device, .fooClass, .chrdev]]
  exit := unregister ++ [.cache]
  nodup := by decide

/-- memory/lab1_cache. -/
def genericCache : Driver Resource where
  steps := [.guard [], .checked .cache [], .checked .region [.cache],
    .checked .cdev [.region, .cache], .guard [.cdev, .region, .cache], .unchecked .fooClass,
    .unchecked .device]
  exit := [.device, .fooClass, .cdev, .region, .cache]
  nodup := by decide

/-- `my_generic_init` of lab_char.h. -/
def genericChar : Driver Resource where
  steps := [.checked .region [], .checked .cdev [.region], .unchecked .memory,
    .guard [.cdev, .region, .memory], .unchecked .fooClass, .unchecked .device]
  exit := [.device, .fooClass, .cdev, .region, .memory]
  nodup := by decide

/-! ## hardware -/

/-- hardware/lab2_memory. -/
def iomem : Driver Resource where
  steps := [.checked .ioBase [], .checked .region [], .checked .fooClass [.region],
    .checked .device [.fooClass, .region], .checked .cdev [.device, .fooClass, .region]]
  exit := [.cdev, .device, .fooClass, .region, .ioBase]
  nodup := by decide

/-- hardware/lab4_serial; that the ports are busy is seen, but nothing is made of it. -/
def serialMouse : Driver Resource where
  steps := [.checked .irq [], .unchecked .ioRegion, .checked .region [], .checked .cdev [.region]]
  exit := [.region, .ioRegion, .irq]
  nodup := by decide

/-- hardware/lab4_full_mouse_driver. The first `cdev_alloc` gives a region back that has
not been taken yet, and the second result overwrites the first. -/
def fullMouse : Driver Resource where
  steps := [.checked .irq [], .unchecked .ioRegion, .checked .earlyCdev [.region],
    .checked .region [], .checked .cdev [.region], .guard [.cdev, .region], .unchecked .fooClass,
    .unchecked .device]
  exit := [.device, .fooClass, .region, .ioRegion, .irq]
  nodup := by decide

/-- hardware/lab5_silly. -/
def silly : Driver Resource where
  steps := [.checked .chrdev [], .unchecked .ioBase]
  exit := [.ioBase, .chrdev]
  nodup := by decide

/-- hardware/lab2_region and hardware/lab2_resource. -/
def ioPorts : Driver Resource := ⟨[.checked .ioRegion []], [.ioRegion], by decide⟩

/-! ## interrupts -/

/-- `my_generic_init` of lab_miscdev.h. -/
def miscdevSteps : List (Step Resource) := [.unchecked .memory, .checked .misc [.memory]]

def miscdev : Driver Resource := ⟨miscdevSteps, [.misc, .memory], by decide⟩

/-- `my_generic_init` of lab_one_interrupt.h, and the labs that only request a line. -/
def oneInterrupt : Driver Resource := ⟨[.checked .irq []], [.irq], by decide⟩

/-- interrupts/lab4_one_thread and interrupts/lab5_one_thread_improved. -/
def oneThread : Driver Resource where
  steps := .unchecked .thread1 :: oneInterrupt.steps
  exit := .thread1 :: oneInterrupt.exit
  nodup := by decide

/-- interrupts/lab3_workqueue_private and interrupts/lab3_workqueue_newapi. -/
def privateWorkqueue : Driver Resource where
  steps := .unchecked .workqueue :: miscdevSteps
  exit := .workqueue :: miscdev.exit
  nodup := by decide

/-- interrupts/lab9_uio. -/
def uio : Driver Resource where
  steps := .checked .irq [] :: miscdevSteps
  exit := .irq :: miscdev.exit
  nodup := by decide

/-- `my_generic_init` of lab_all_interrupt.h, without the lines, which have their own
account. `get_irqs` clears the counters. -/
def allInterrupts : Driver Resource where
  steps := [.unchecked .memory, .checked .misc [], .unchecked .nevents, .uses .memory,
    .uses .nevents]
  exit := [.misc, .memory, .nevents]
  nodup := by decide

/-- interrupts/lab6_all_thread. -/
def allThread : Driver Resource where
  steps := .unchecked .thread1 :: allInterrupts.steps
  exit := .thread1 :: allInterrupts.exit
  nodup := by decide

/-! ## debug, devmodel, block, serial -/

/-- debug/lab5_proc. -/
def proc : Driver Resource := ⟨[.checked .procEntry []], [.procEntry], by decide⟩

/-- debug/debug_lab2_procfs and debug/debug_lab3_seqfile. -/
def procfs : Driver Resource where
  steps := [.checked .procDir [], .checked .procEntry [.procDir]]
  exit := [.procEntry, .procDir]
  nodup := by decide

/-- The solutions of debug/lab6 and debug/lab7. -/
def procPair : Driver Resource where
  steps := [.checked .procDir [], .checked .procEntry [.procDir],
    .checked .procEntry2 [.procEntry, .procDir]]
  exit := [.procEntry, .procEntry2, .procDir]
  nodup := by decide

/-- debug/lab1_kprobes and debug/debug_lab5_kprobes. -/
def kprobes : Driver Resource := ⟨[.checked .kprobe []], [.kprobe], by decide⟩

def lddbus : Driver Resource where
  steps := [.checked .bus [], .checked .busDevice [.bus]]
  exit := [.busDevice, .bus]
  nodup := by decide

/-- The two lab1_firmware; what `device_register` returns is not looked at. -/
def firmware : Driver Resource where
  steps := [.unchecked .plainDevice, .checked .firmware [.plainDevice]]
  exit := [.firmware, .plainDevice]
  nodup := by decide

/-- block/lab2_block, its older version and block/sbd. -/
def ramBlock : Driver Resource where
  steps := [.checked .memory [], .checked .queue [.memory], .checked .blkdev [.memory],
    .checked .disk [.blkdev, .memory], .sure .addedDisk]
  exit := [.addedDisk, .disk, .blkdev, .queue, .memory]
  nodup := by decide

def TINY_TTY_MINORS : ℕ := 4

def minors : List ℕ := List.range TINY_TTY_MINORS

/-- serial/tiny_tty; where an allocation fails, what stands in `tiny_table` is freed. -/
def tinyTty : Driver Resource where
  steps := [.checked .ttyDriver [], .checked .ttyRegistered [.ttyDriver]] ++
    minors.map (fun i => .checked (.tiny i) ((List.range i).map .tiny ++ [.ttyDriver])) ++
    minors.map fun i => .unchecked (.ttyDevice i)
  exit := minors.map .ttyDevice ++ [.ttyRegistered, .ttyDriver] ++ minors.map .tiny
  nodup := by decide

/-! ## Which of them keep their balance -/

inductive Lab
  | charInit
  | charReadWrite
  | spinlock
  | completion
  | deferTimer
  | deferWorkqueue
  | memoryCache
  | genericCache
  | genericChar
  | iomem
  | serialMouse
  | fullMouse
  | silly
  | ioPorts
  | miscdev
  | oneInterrupt
  | oneThread
  | privateWorkqueue
  | uio
  | allInterrupts
  | allThread
  | proc
  | procfs
  | procPair
  | kprobes
  | lddbus
  | firmware
  | ramBlock
  | tinyTty
  deriving DecidableEq

def Lab.driver : Lab → Driver Resource
  | .charInit => Modules.charInit
  | .charReadWrite => Modules.charReadWrite
  | .spinlock => Modules.spinlock
  | .completion => Modules.completion
  | .deferTimer => Modules.deferTimer
  | .deferWorkqueue => Modules.deferWorkqueue
  | .memoryCache => Modules.memoryCache
  | .genericCache => Modules.genericCache
  | .genericChar => Modules.genericChar
  | .iomem => Modules.iomem
  | .serialMouse => Modules.serialMouse
  | .fullMouse => Modules.fullMouse
  | .silly => Modules.silly
  | .ioPorts => Modules.ioPorts
  | .miscdev => Modules.miscdev
  | .oneInterrupt => Modules.oneInterrupt
  | .oneThread => Modules.oneThread
  | .privateWorkqueue => Modules.privateWorkqueue
  | .uio => Modules.uio
  | .allInterrupts => Modules.allInterrupts
  | .allThread => Modules.allThread
  | .proc => Modules.proc
  | .procfs => Modules.procfs
  | .procPair => Modules.procPair
  | .kprobes => Modules.kprobes
  | .lddbus => Modules.lddbus
  | .firmware => Modules.firmware
  | .ramBlock => Modules.ramBlock
  | .tinyTty => Modules.tinyTty

/-- These can be loaded and unloaded any number of times, whatever is refused, without a
fault and with nothing left behind; and no others. -/
theorem labs_balanced_iff (lab : Lab) : Balanced tolerates lab.driver ↔
    lab ∈ [Lab.silly, .ioPorts, .miscdev, .oneInterrupt, .proc, .procfs, .procPair, .kprobes,
      .lddbus] := by
  rw [balanced_iff]
  cases lab <;> decide

/-- These undo what they have done when loading them fails; and no others. -/
theorem labs_unwind_iff (lab : Lab) : AllOrNothing tolerates lab.driver ↔
    lab ∉ [Lab.completion, .iomem, .serialMouse, .fullMouse, .oneThread, .privateWorkqueue, .uio,
      .allInterrupts, .allThread, .firmware, .ramBlock, .tinyTty] := by
  rw [allOrNothing_iff]
  cases lab <;> decide

end LddSamples.Modules
