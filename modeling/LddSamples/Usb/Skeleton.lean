import LddSamples.Kernel.Basic
import LddSamples.Library.ByteMap
import LddSamples.Library.Runs

/-!
# usb-skeleton: a device with bulk endpoints

Calls of `skel_read`, `skel_write` and `skel_flush` on any number of open files share one
`usb_skel` with the completions of its requests, with `skel_disconnect`, suspends and resets.
The USB core completes a submitted request at some time with some status, and a kill returns
when the request is not under way and no completion of it is running. `usb_open` and
`usb_deregister_dev` exclude each other, and the lock of the device keeps its disconnect,
suspends and resets apart.
-/

namespace LddSamples.Usb

open Kernel CArith

def EINTR : ℤ := 4
def ENODEV : ℤ := 19
def EPIPE : ℤ := 32

def MAX_TRANSFER : ℕ := PAGE_SIZE - 512
def WRITES_IN_FLIGHT : ℕ := 8

/-- A step that its party cannot take now, or one that uses what has been freed. -/
inductive Stop
  | disabled
  | useAfterFree

/-- Who holds `io_mutex`: a call, or the thread that disconnects or resets the device. -/
inductive Owner
  | call (c : ℕ)
  | bus
  deriving DecidableEq

/-- `bulk_in_urb`: the length for which it is submitted, and how many of its completions
have still to wake the readers. -/
structure ReadUrb where
  flight : Option ℕ
  callbacks : ℕ

def ReadUrb.Idle (urb : ReadUrb) : Prop := urb.flight = none ∧ urb.callbacks = 0

instance (urb : ReadUrb) : Decidable urb.Idle := inferInstanceAs (Decidable (_ ∧ _))

/-- A piece of the buffer that a read has passed to `copy_to_user`. -/
structure Handed where
  reader : ℕ
  bytes : List UInt8
  ok : Bool

/-- `struct usb_skel`; `submitted` counts the writes that are under way, callbacks included.
Behind `disconnected`, for the statements: what the device has sent and was sent, what reads
were handed, how many failures there have been, the last of which `errors` is about, and which
were reported. -/
structure Skel where
  limitSem : ℕ
  submitted : ℕ
  bulkInUrb : ReadUrb
  bulkInBuffer : ℕ → UInt8
  bulkInSize : ℕ
  bulkInFilled : ℕ
  bulkInCopied : ℕ
  errors : ℤ
  ongoingRead : Bool
  kref : ℕ
  ioMutex : Option Owner
  disconnected : Bool
  received : List UInt8
  sent : List (ℕ × List UInt8)
  handed : List Handed
  failures : ℕ
  reports : List ℕ

namespace Skel

def fail (k : Skel) (status : ℤ) : Skel := { k with errors := status, failures := k.failures + 1 }

/-- A caller takes the error that is there for its own. -/
def report (k : Skel) : Skel := { k with reports := k.reports ++ [k.failures] }

/-- To preserve notifications about reset. -/
def errorOf (errors : ℤ) : ℤ := if errors = -EPIPE then errors else -Kernel.EIO

/-- `bulk_in_filled - bulk_in_copied`, as a `size_t`. -/
def available (k : Skel) : ℕ := toUInt64 (k.bulkInFilled - k.bulkInCopied)

def hand (k : Skel) (reader chunk : ℕ) (ok : Bool) : Skel :=
  { k with
    bulkInCopied := k.bulkInCopied + chunk
    handed := k.handed ++ [⟨reader, ByteMap.window k.bulkInBuffer k.bulkInCopied chunk, ok⟩] }

/-- The device sends `data` into the buffer, and `skel_read_bulk_callback` runs up to
`wake_up_interruptible`. -/
def readCallback (k : Skel) (status : ℤ) (data : List UInt8) : Skel :=
  let k' := { k with
    bulkInUrb := ⟨none, k.bulkInUrb.callbacks + 1⟩
    bulkInBuffer := ByteMap.overwrite k.bulkInBuffer 0 data
    ongoingRead := false }
  if status = 0 then { k' with bulkInFilled := data.length, received := k.received ++ data }
  else k'.fail status

end Skel

/-! ## Reads -/

/-- Where `skel_do_read_io` was called: before `retry`, or with the result of a copy. -/
inductive After
  | retry
  | leave (rv : ℤ)

/-- Before `mutex_lock_interruptible`; at `retry`; in `wait_event_interruptible`; before the
look at `errors` and, with an error, before `errors = 0`; before the test of `bulk_in_filled`;
in `skel_do_read_io` before `ongoing_read = 1`, before `usb_submit_urb` and, where that has
failed, before `ongoing_read = 0`; at `exit`; and behind it. -/
inductive ReadPc
  | locking
  | retry
  | waiting
  | idle
  | failing (rv : ℤ)
  | deciding
  | starting (count : ℕ) (after : After)
  | submitting (count : ℕ) (after : After)
  | refused (rv : ℤ) (after : After)
  | unlocking (rv : ℤ)
  | leaving (rv : ℤ)
  | returned (rv : ℤ)

inductive ReadEvent
  | lock
  | interrupt
  | sample
  | wake
  | look
  | clear
  | decide (ok : Bool)
  | start
  | submit (errno : ℕ)
  | refuse
  | unlock

structure ReadArgs where
  count : ℕ
  nonblock : Bool

/-- `disconnected` changes under `io_mutex` only, as do the fields of the buffer while no read
is under way: a step that takes the mutex tests the one, and one step copies and counts. -/
def readStep (c : ℕ) (args : ReadArgs) (k : Skel) : ReadPc → ReadEvent → Except Stop (Skel × ReadPc)
  | .locking, .lock =>
      if k.ioMutex = none then
        .ok ({ k with ioMutex := some (.call c) },
          if k.disconnected then .unlocking (-ENODEV) else .retry)
      else .error .disabled
  | .locking, .interrupt =>
      if k.ioMutex = none then .error .disabled else .ok (k, .leaving (-EINTR))
  | .retry, .sample =>
      .ok (k, if k.ongoingRead then
          if args.nonblock then .unlocking (-EAGAIN) else .waiting
        else .idle)
  | .waiting, .wake => if k.ongoingRead then .error .disabled else .ok (k, .idle)
  | .waiting, .interrupt =>
      if k.ongoingRead then .ok (k, .unlocking (-ERESTARTSYS)) else .error .disabled
  | .idle, .look =>
      if k.errors < 0 then .ok (k.report, .failing (Skel.errorOf k.errors)) else .ok (k, .deciding)
  | .failing rv, .clear => .ok ({ k with errors := 0 }, .unlocking rv)
  | .deciding, .decide ok =>
      if k.bulkInFilled = 0 ∨ k.available = 0 then .ok (k, .starting args.count .retry)
      else
        let chunk := min k.available args.count
        let rv := if ok then toInt32 chunk else -EFAULT
        .ok (k.hand c chunk ok,
          if k.available < args.count then .starting (args.count - chunk) (.leave rv)
          else .unlocking rv)
  | .starting count after, .start =>
      .ok ({ k with ongoingRead := true, bulkInFilled := 0, bulkInCopied := 0 },
        .submitting count after)
  | .submitting count after, .submit errno =>
      if errno = 0 then
        .ok ({ k with bulkInUrb := ⟨some (min k.bulkInSize count), k.bulkInUrb.callbacks⟩ },
          match after with
            | .retry => .retry
            | .leave rv => .unlocking rv)
      else .ok (k, .refused (if (errno : ℤ) = ENOMEM then -errno else -Kernel.EIO) after)
  | .refused rv after, .refuse =>
      .ok ({ k with ongoingRead := false }, match after with
        | .retry => .unlocking rv
        | .leave rv' => .unlocking rv')
  | .unlocking rv, .unlock => .ok ({ k with ioMutex := none }, .leaving rv)
  | _, _ => .error .disabled

/-! ## Writes and their requests -/

/-- A request: its references, whether it is on the anchor, and how often it was freed. -/
structure Urb where
  refs : ℕ
  anchored : Bool
  frees : ℕ

def Urb.get (urb : Urb) : Urb := { urb with refs := urb.refs + 1 }

/-- `usb_free_urb` and `usb_put_urb`. -/
def Urb.put (urb : Urb) : Except Stop Urb :=
  match urb.refs with
  | 0 => .error .useAfterFree
  | 1 => .ok { urb with refs := 0, frees := urb.frees + 1 }
  | refs + 2 => .ok { urb with refs := refs + 1 }

def Urb.unanchor (urb : Urb) : Except Stop Urb :=
  if urb.anchored then Urb.put { urb with anchored := false } else .ok urb

/-- The pointer `buf` and what it points to. -/
inductive Buffer
  | null
  | held
  | freed

/-- `usb_free_coherent`, which leaves a null pointer alone. -/
def Buffer.free : Buffer → Except Stop Buffer
  | .null => .ok .null
  | .held => .ok .freed
  | .freed => .error .useAfterFree

/-- Before each of the calls of `skel_write`, down to `up` on its way out with an error. -/
inductive WritePc
  | downing
  | looking
  | allocating
  | buffering
  | copying
  | locking
  | anchoring
  | submitting
  | unlocking (retval : ℤ)
  | putting
  | unanchoring (retval : ℤ)
  | freeingBuffer (retval : ℤ)
  | freeingUrb (retval : ℤ)
  | upping (retval : ℤ)
  | leaving (retval : ℤ)
  | returned (retval : ℤ)

/-- The request in the hands of the USB core: under way; in `skel_write_bulk_callback` with
an error to note, before the buffer is freed, and before `up`; and behind the callback. -/
inductive Hcd
  | never
  | inFlight
  | reporting (status : ℤ)
  | freeing
  | upping
  | putting
  | over

structure WriteCall where
  data : List UInt8
  nonblock : Bool
  pc : WritePc
  hcd : Hcd
  urb : Urb
  buf : Buffer

def WriteCall.writesize (w : WriteCall) : ℕ := min w.data.length MAX_TRANSFER

inductive WriteEvent
  | down
  | interrupt
  | look
  | allocUrb (ok : Bool)
  | allocBuffer (ok : Bool)
  | copy (ok : Bool)
  | lock
  | anchor
  | submit (errno : ℕ)
  | unlock
  | putUrb
  | unanchor
  | freeBuffer
  | up

def writeStep (c : ℕ) (k : Skel) (w : WriteCall) : WritePc → WriteEvent →
    Except Stop (Skel × WriteCall)
  | .downing, .down =>
      if 0 < k.limitSem then
        .ok ({ k with limitSem := k.limitSem - 1 }, { w with pc := .looking })
      else if w.nonblock then .ok (k, { w with pc := .leaving (-EAGAIN) })
      else .error .disabled
  | .downing, .interrupt =>
      if w.nonblock ∨ 0 < k.limitSem then .error .disabled
      else .ok (k, { w with pc := .leaving (-ERESTARTSYS) })
  | .looking, .look =>
      if k.errors < 0 then
        .ok ({ k.report with errors := 0 }, { w with pc := .upping (Skel.errorOf k.errors) })
      else .ok (k, { w with pc := .allocating })
  | .allocating, .allocUrb ok =>
      .ok (k, if ok then { w with pc := .buffering, urb := ⟨1, false, 0⟩ }
        else { w with pc := .upping (-ENOMEM) })
  | .buffering, .allocBuffer ok =>
      .ok (k, if ok then { w with pc := .copying, buf := .held }
        else { w with pc := .freeingBuffer (-ENOMEM) })
  | .copying, .copy ok =>
      .ok (k, { w with pc := if ok then .locking else .freeingBuffer (-EFAULT) })
  | .locking, .lock =>
      if k.ioMutex = none then
        if k.disconnected then .ok (k, { w with pc := .freeingBuffer (-ENODEV) })
        else .ok ({ k with ioMutex := some (.call c) }, { w with pc := .anchoring })
      else .error .disabled
  | .anchoring, .anchor =>
      .ok (k, { w with pc := .submitting, urb := { w.urb.get with anchored := true } })
  | .submitting, .submit errno =>
      if errno = 0 then
        .ok ({ k with
            submitted := k.submitted + 1
            sent := k.sent ++ [(c, w.data.take w.writesize)] },
          { w with pc := .unlocking 0, urb := w.urb.get, hcd := .inFlight })
      else .ok (k, { w with pc := .unlocking (-errno) })
  | .unlocking retval, .unlock =>
      .ok ({ k with ioMutex := none },
        { w with pc := if retval = 0 then .putting else .unanchoring retval })
  | .putting, .putUrb => do
      let urb ← w.urb.put
      .ok (k, { w with pc := .leaving w.writesize, urb := urb })
  | .unanchoring retval, .unanchor => do
      let urb ← w.urb.unanchor
      .ok (k, { w with pc := .freeingBuffer retval, urb := urb })
  | .freeingBuffer retval, .freeBuffer => do
      let buf ← w.buf.free
      .ok (k, { w with pc := .freeingUrb retval, buf := buf })
  | .freeingUrb retval, .putUrb => do
      let urb ← w.urb.put
      .ok (k, { w with pc := .upping retval, urb := urb })
  | .upping retval, .up =>
      .ok ({ k with limitSem := k.limitSem + 1 }, { w with pc := .leaving retval })
  | _, _ => .error .disabled

inductive HcdEvent
  | giveback (status : ℤ)
  | note
  | freeBuffer
  | up
  | put

/-- `usb_hcd_giveback_urb` around `skel_write_bulk_callback`. -/
def hcdStep (k : Skel) (w : WriteCall) : Hcd → HcdEvent → Except Stop (Skel × WriteCall)
  | .inFlight, .giveback status => do
      let urb ← w.urb.unanchor
      .ok (k, { w with hcd := if status = 0 then .freeing else .reporting status, urb := urb })
  | .reporting status, .note => .ok (k.fail status, { w with hcd := .freeing })
  | .freeing, .freeBuffer => do
      let buf ← w.buf.free
      .ok (k, { w with hcd := .upping, buf := buf })
  | .upping, .up =>
      .ok ({ k with limitSem := k.limitSem + 1, submitted := k.submitted - 1 },
        { w with hcd := .putting })
  | .putting, .put => do
      let urb ← w.urb.put
      .ok (k, { w with hcd := .over, urb := urb })
  | _, _ => .error .disabled

/-! ## Flushes -/

inductive FlushPc
  | locking
  | draining
  | killing
  | resolving
  | unlocking (res : ℤ)
  | leaving (res : ℤ)
  | returned (res : ℤ)

inductive FlushEvent
  | lock
  | drain
  | kill
  | resolve
  | unlock

def flushStep (c : ℕ) (k : Skel) : FlushPc → FlushEvent → Except Stop (Skel × FlushPc)
  | .locking, .lock =>
      if k.ioMutex = none then .ok ({ k with ioMutex := some (.call c) }, .draining)
      else .error .disabled
  | .draining, .drain => if k.submitted = 0 then .ok (k, .killing) else .error .disabled
  | .killing, .kill => if k.bulkInUrb.Idle then .ok (k, .resolving) else .error .disabled
  | .resolving, .resolve =>
      if k.errors = 0 then .ok (k, .unlocking 0)
      else .ok ({ k.report with errors := 0 }, .unlocking (Skel.errorOf k.errors))
  | .unlocking res, .unlock => .ok ({ k with ioMutex := none }, .leaving res)
  | _, _ => .error .disabled

/-! ## Calls -/

inductive Call
  | absent
  | read (file : ℕ) (args : ReadArgs) (pc : ReadPc)
  | write (file : ℕ) (w : WriteCall)
  | flush (file : ℕ) (pc : FlushPc)

inductive CallEvent
  | read (e : ReadEvent)
  | write (e : WriteEvent)
  | flush (e : FlushEvent)

def Call.step (c : ℕ) (k : Skel) : Call → CallEvent → Except Stop (Skel × Call)
  | .read file args pc, .read e => do
      let (k, pc) ← readStep c args k pc e
      .ok (k, .read file args pc)
  | .write file w, .write e => do
      let (k, w) ← writeStep c k w w.pc e
      .ok (k, .write file w)
  | .flush file pc, .flush e => do
      let (k, pc) ← flushStep c k pc e
      .ok (k, .flush file pc)
  | _, _ => .error .disabled

/-- The call returns to the VFS, which lets go of the file. -/
def Call.finish : Call → Option (ℕ × Call)
  | .read file args (.leaving rv) => some (file, .read file args (.returned rv))
  | .write file w =>
      match w.pc with
      | .leaving retval => some (file, .write file { w with pc := .returned retval })
      | _ => none
  | .flush file (.leaving res) => some (file, .flush file (.returned res))
  | _ => none

/-- `if (!count) return 0`, and `if (count == 0) goto exit`. -/
def Call.beginRead (file count : ℕ) (nonblock : Bool) : Call :=
  .read file ⟨count, nonblock⟩ (if count = 0 then .leaving 0 else .locking)

def Call.beginWrite (file : ℕ) (data : List UInt8) (nonblock : Bool) : Call :=
  .write file ⟨data, nonblock, if data.length = 0 then .leaving 0 else .downing, .never,
    ⟨0, false, 0⟩, .null⟩

/-! ## The device on its bus -/

/-- `skel_suspend` and the two halves of a reset, in `skel_draw_down` and behind it; and
`skel_disconnect`: before `usb_deregister_dev`, before and in its critical section, before
each of the kills, before `kref_put`, and behind it. -/
inductive Bus
  | bound
  | drawing (reset : Bool)
  | drawn (reset : Bool)
  | resetting
  | noted
  | cleared
  | deregistered
  | marking
  | marked
  | readKilled
  | killed
  | gone

inductive BusEvent
  | suspend
  | preReset
  | drain
  | kill
  | postReset
  | unlock
  | disconnect
  | lock
  | mark
  | killRead
  | killWrites

def busStep (k : Skel) : Bus → BusEvent → Except Stop (Skel × Bus)
  | .bound, .suspend => .ok (k, .drawing false)
  | .bound, .preReset =>
      if k.ioMutex = none then .ok ({ k with ioMutex := some .bus }, .drawing true)
      else .error .disabled
  | .drawing reset, .drain => if k.submitted = 0 then .ok (k, .drawn reset) else .error .disabled
  | .drawn reset, .kill =>
      if k.bulkInUrb.Idle then .ok (k, if reset then .resetting else .bound)
      else .error .disabled
  | .resetting, .postReset => .ok (k.fail (-EPIPE), .noted)
  | .noted, .unlock => .ok ({ k with ioMutex := none }, .bound)
  | .bound, .disconnect => .ok (k, .cleared)
  | .deregistered, .lock =>
      if k.ioMutex = none then .ok ({ k with ioMutex := some .bus }, .marking)
      else .error .disabled
  | .marking, .mark => .ok ({ k with disconnected := true, ioMutex := none }, .marked)
  | .marked, .killRead => if k.bulkInUrb.Idle then .ok (k, .readKilled) else .error .disabled
  | .readKilled, .killWrites => if k.submitted = 0 then .ok (k, .killed) else .error .disabled
  | _, _ => .error .disabled

/-- The interface still has the device for its data. -/
def Bus.hasIntfdata : Bus → Bool
  | .bound => true
  | .drawing _ => true
  | .drawn _ => true
  | .resetting => true
  | .noted => true
  | _ => false

/-! ## The whole -/

inductive File
  | closed
  | opening
  | opened
  | released
  deriving DecidableEq

/-- `fds` counts the descriptors of a file and `users` the calls that hold it; `openers` the
opens that are between the look at the interface and `kref_get`; `frees` how often the
`usb_skel` was freed. -/
structure World where
  skel : Skel
  files : ℕ → File
  fds : ℕ → ℕ
  users : ℕ → ℕ
  openers : ℕ
  calls : ℕ → Call
  bus : Bus
  frees : ℕ

inductive Event
  | openFind (f : ℕ)
  | openFail (f : ℕ)
  | openGet (f : ℕ)
  | dup (f : ℕ)
  | close (f : ℕ)
  | release (f : ℕ)
  | read (c f count : ℕ) (nonblock : Bool)
  | write (c f : ℕ) (data : List UInt8) (nonblock : Bool)
  | flush (c f : ℕ)
  | inCall (c : ℕ) (e : CallEvent)
  | hcd (c : ℕ) (e : HcdEvent)
  | finish (c : ℕ)
  | completeRead (status : ℤ) (data : List UInt8)
  | wakeReaders
  | inBus (e : BusEvent)
  | deregister
  | putInterface

namespace World

/-- After `skel_probe`, for a bulk-in endpoint with the descriptor's `wMaxPacketSize`. -/
def initial (maxPacketSize : BitVec 16) (content : ℕ → UInt8) : World where
  skel := ⟨WRITES_IN_FLIGHT, 0, ⟨none, 0⟩, content, (maxPacketSize &&& 0x7ff).toNat, 0, 0, 0, false,
    1, none, false, [], [], [], 0, []⟩
  files _ := .closed
  fds _ := 0
  users _ := 0
  openers := 0
  calls _ := .absent
  bus := .bound
  frees := 0

def krefPut (s : World) : World :=
  { s with
    skel := { s.skel with kref := s.skel.kref - 1 }
    frees := if s.skel.kref = 1 then s.frees + 1 else s.frees }

def setCall (s : World) (c : ℕ) (call : Call) : World :=
  { s with calls := Function.update s.calls c call }

def setFile (s : World) (f : ℕ) (file : File) : World :=
  { s with files := Function.update s.files f file }

/-- A call on a descriptor of the file begins, and holds the file. -/
def enter (s : World) (c f : ℕ) (call : Call) : Except Stop World :=
  match s.calls c with
  | .absent =>
      if 0 < s.fds f then
        .ok { s.setCall c call with users := Function.update s.users f (s.users f + 1) }
      else .error .disabled
  | _ => .error .disabled

/-- What a step does where nothing that it uses has been freed. -/
def move (s : World) : Event → Except Stop World
  | .openFind f =>
      -- a minor that is not registered, or an interface without data, is -ENODEV
      if s.bus.hasIntfdata ∧ s.files f = .closed then
        .ok { s.setFile f .opening with openers := s.openers + 1 }
      else .error .disabled
  | .openFail f =>
      if s.files f = .opening then .ok { s.setFile f .released with openers := s.openers - 1 }
      else .error .disabled
  | .openGet f =>
      if s.files f = .opening then
        .ok { s.setFile f .opened with
          openers := s.openers - 1
          skel := { s.skel with kref := s.skel.kref + 1 }
          fds := Function.update s.fds f 1 }
      else .error .disabled
  | .dup f =>
      if 0 < s.fds f then .ok { s with fds := Function.update s.fds f (s.fds f + 1) }
      else .error .disabled
  | .close f =>
      if 0 < s.fds f then .ok { s with fds := Function.update s.fds f (s.fds f - 1) }
      else .error .disabled
  | .release f =>
      if s.files f = .opened ∧ s.fds f = 0 ∧ s.users f = 0 then .ok (s.setFile f .released).krefPut
      else .error .disabled
  | .read c f count nonblock => s.enter c f (Call.beginRead f count nonblock)
  | .write c f data nonblock => s.enter c f (Call.beginWrite f data nonblock)
  | .flush c f => s.enter c f (.flush f .locking)
  | .inCall c e => do
      let (k, call) ← (s.calls c).step c s.skel e
      .ok { s.setCall c call with skel := k }
  | .hcd c e =>
      match s.calls c with
      | .write f w => do
          let (k, w) ← hcdStep s.skel w w.hcd e
          .ok { s.setCall c (.write f w) with skel := k }
      | _ => .error .disabled
  | .finish c =>
      match (s.calls c).finish with
      | some (f, call) =>
          .ok { s.setCall c call with users := Function.update s.users f (s.users f - 1) }
      | none => .error .disabled
  | .completeRead status data =>
      match s.skel.bulkInUrb.flight with
      | some length =>
          if data.length ≤ length then
            .ok { s with skel := s.skel.readCallback status data }
          else .error .disabled
      | none => .error .disabled
  | .wakeReaders =>
      if 0 < s.skel.bulkInUrb.callbacks then
        .ok { s with skel := { s.skel with
          bulkInUrb := ⟨s.skel.bulkInUrb.flight, s.skel.bulkInUrb.callbacks - 1⟩ } }
      else .error .disabled
  | .inBus e => do
      let (k, bus) ← busStep s.skel s.bus e
      .ok { s with skel := k, bus := bus }
  | .deregister =>
      match s.bus with
      | .cleared =>
          if s.openers = 0 then .ok { s with bus := .deregistered } else .error .disabled
      | _ => .error .disabled
  | .putInterface =>
      match s.bus with
      | .killed => .ok { s with bus := .gone }.krefPut
      | _ => .error .disabled

end World

/-- The steps that use the `usb_skel`; giving an urb back takes it off the anchor there. -/
def Event.touches : Event → Bool
  | .openGet _ => true
  | .release _ => true
  | .inCall _ _ => true
  | .hcd _ (.giveback _) => true
  | .hcd _ .note => true
  | .hcd _ .up => true
  | .completeRead _ _ => true
  | .wakeReaders => true
  | .inBus _ => true
  | .deregister => true
  | .putInterface => true
  | _ => false

def World.step (s : World) (e : Event) : Except Stop World := do
  let s' ← s.move e
  if e.touches ∧ s.frees ≠ 0 then .error .useAfterFree else .ok s'

end LddSamples.Usb
